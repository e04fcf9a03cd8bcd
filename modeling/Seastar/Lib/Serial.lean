import Mathlib.Tactic.Linarith

/-!
Serial number arithmetic modulo 2³². A counter that only grows is kept in 32
bits; two values of it are compared through the sign of their difference. On
counters less than 2³¹ apart this is the order of the counters themselves.
-/

namespace Lib.Serial

/-- The difference read as a signed 32-bit number. -/
def diff (a b : UInt32) : Int := (a - b).toBitVec.toInt

theorem toNat_sub (a b : UInt32) : (a - b).toNat = (a.toNat + (2 ^ 32 - b.toNat)) % 2 ^ 32 := by
  rw [UInt32.toNat_sub, Nat.add_comm]

/-- The sign of the difference is its top bit. -/
theorem diff_neg_iff (a b : UInt32) : diff a b < 0 ↔ 2 ^ 31 ≤ (a - b).toNat := by
  have h := (a - b).toNat_lt
  have hb : (a - b).toBitVec.toNat = (a - b).toNat := rfl
  rw [diff, BitVec.toInt_eq_toNat_cond, hb]
  split <;> omega

/-- A difference that is not negative is the unsigned one. -/
theorem diff_of_nonneg {a b : UInt32} (h : ¬ diff a b < 0) : diff a b = (a - b).toNat := by
  have hlt := mt (diff_neg_iff a b).mpr h
  have hb : (a - b).toBitVec.toNat = (a - b).toNat := rfl
  rw [diff, BitVec.toInt_eq_toNat_cond, hb, if_pos (by omega)]

theorem ofNat_toNat_mod (n : Nat) : (UInt32.ofNat n).toNat = n % 2 ^ 32 := UInt32.toNat_ofNat'

/-- The difference of two counters less than 2³² apart. -/
theorem toNat_ofNat_sub {a b : Nat} (hab : a ≤ b) (hlt : b < a + 2 ^ 32) :
    (UInt32.ofNat b - UInt32.ofNat a).toNat = b - a := by
  rw [toNat_sub, ofNat_toNat_mod, ofNat_toNat_mod]
  omega

/-- Counters less than 2³¹ apart are compared correctly. -/
theorem diff_ofNat_neg_iff {a b : Nat} (h₁ : a < b + 2 ^ 31) (h₂ : b ≤ a + 2 ^ 31) :
    diff (UInt32.ofNat a) (UInt32.ofNat b) < 0 ↔ a < b := by
  rw [diff_neg_iff, toNat_sub, ofNat_toNat_mod, ofNat_toNat_mod]
  omega

/-- Their difference is that of the counters. -/
theorem diff_ofNat {a b : Nat} (h₁ : a < b + 2 ^ 31) (h₂ : b ≤ a + 2 ^ 31) :
    diff (UInt32.ofNat a) (UInt32.ofNat b) = (a : Int) - b := by
  have hb : (UInt32.ofNat a - UInt32.ofNat b).toBitVec.toNat =
      (a % 2 ^ 32 + (2 ^ 32 - b % 2 ^ 32)) % 2 ^ 32 := by
    show (UInt32.ofNat a - UInt32.ofNat b).toNat = _
    rw [toNat_sub, ofNat_toNat_mod, ofNat_toNat_mod]
  rw [diff, BitVec.toInt_eq_toNat_cond, hb]
  split <;> omega

end Lib.Serial
