import Mathlib.Tactic.Ring

/-!
Numbers as byte strings of a fixed length, the least significant byte first. The two
directions are inverse to each other on the numbers that fit.
-/

namespace Lib.LittleEndian

/-- The `k` low bytes of a number. -/
def encode : Nat → Nat → List UInt8
  | 0, _ => []
  | k + 1, v => UInt8.ofNat (v % 256) :: encode k (v / 256)

/-- The number a byte string stands for. -/
def decode : List UInt8 → Nat
  | [] => 0
  | b :: bs => b.toNat + 256 * decode bs

@[simp] theorem length_encode (k v : Nat) : (encode k v).length = k := by
  induction k generalizing v with
  | zero => rfl
  | succ k ih => rw [encode, List.length_cons, ih]

theorem decode_encode (k v : Nat) : decode (encode k v) = v % 256 ^ k := by
  induction k generalizing v with
  | zero => simp [encode, decode, Nat.mod_one]
  | succ k ih =>
    have hb : (UInt8.ofNat (v % 256)).toNat = v % 256 := by
      simp
    rw [encode, decode, ih, hb, pow_succ, mul_comm (256 ^ k), Nat.mod_mul]

theorem decode_lt (bs : List UInt8) : decode bs < 256 ^ bs.length := by
  induction bs with
  | nil => exact Nat.one_pos
  | cons b bs ih =>
    have hb : b.toNat < 256 := b.toNat_lt
    have hstep : 256 * decode bs + 256 ≤ 256 * 256 ^ bs.length := by
      rw [← Nat.mul_succ]
      exact Nat.mul_le_mul_left 256 ih
    rw [decode, List.length_cons, pow_succ, mul_comm (256 ^ bs.length)]
    omega

theorem encode_decode (bs : List UInt8) : encode bs.length (decode bs) = bs := by
  induction bs with
  | nil => rfl
  | cons b bs ih =>
    have hb : b.toNat < 256 := b.toNat_lt
    have hlow : (b.toNat + 256 * decode bs) % 256 = b.toNat := by omega
    have hhigh : (b.toNat + 256 * decode bs) / 256 = decode bs := by omega
    rw [List.length_cons, decode, encode, hlow, hhigh, ih, UInt8.ofNat_toNat]

end Lib.LittleEndian
