import Seastar.Lib.Serial
import Seastar.Net.PacketMerger

/-!
`tcp_seq` of `net/tcp.hh`: sequence numbers modulo 2³², compared by the sign of
their difference, and their use as the offsets of the out-of-order queue.
-/

namespace Seastar.Net.Tcp

open Lib

/-- `struct tcp_seq`. -/
structure TcpSeq where
  raw : UInt32
  deriving DecidableEq, Repr

/-- `make_seq`. -/
def makeSeq (raw : UInt32) : TcpSeq := ⟨raw⟩

namespace TcpSeq

/-- `operator+(tcp_seq, int32_t)`. -/
def add (s : TcpSeq) (n : UInt32) : TcpSeq := ⟨s.raw + n⟩

/-- `operator-(tcp_seq, int32_t)`. -/
def back (s : TcpSeq) (n : UInt32) : TcpSeq := ⟨s.raw - n⟩

/-- `operator-(tcp_seq, tcp_seq)`, converted to `uint32_t`. -/
def sub (s q : TcpSeq) : UInt32 := s.raw - q.raw

/-- `operator-(tcp_seq, tcp_seq)`. -/
def diff (s q : TcpSeq) : Int := Serial.diff s.raw q.raw

/-- `operator<`. -/
def lt (s q : TcpSeq) : Bool := decide (s.diff q < 0)

/-- `operator>`. -/
def gt (s q : TcpSeq) : Bool := q.lt s

/-- `operator<=`. -/
def le (s q : TcpSeq) : Bool := !s.gt q

/-- `operator>=`. -/
def ge (s q : TcpSeq) : Bool := !s.lt q

theorem lt_irrefl (s : TcpSeq) : s.lt s = false := by
  rw [TcpSeq.lt, decide_eq_false_iff_not, TcpSeq.diff, Serial.diff_neg_iff]
  simp

end TcpSeq

/-- An `int32_t` handed over as a `size_t`: a negative value becomes huge. -/
def sizeOfInt (n : Int) : Nat := (n % 2 ^ 64).toNat

instance : MergeOffset TcpSeq where
  add s n := s.add (UInt32.ofNat n)
  sub s q := sizeOfInt (s.diff q)
  lt := TcpSeq.lt
  le := TcpSeq.le

/-- The sequence number at distance `n` from `base`. -/
def seqAt (base : TcpSeq) (n : Nat) : TcpSeq := base.add (UInt32.ofNat n)

theorem seqAt_add (base : TcpSeq) (a n : Nat) :
    (seqAt base a).add (UInt32.ofNat n) = seqAt base (a + n) := by
  simp only [seqAt, TcpSeq.add, UInt32.ofNat_add, UInt32.add_assoc]

/-- The last sequence number in front of a position. -/
theorem seqAt_back (base : TcpSeq) (n : Nat) : (seqAt base (n + 1)).back 1 = seqAt base n := by
  simp only [seqAt, TcpSeq.add, TcpSeq.back, UInt32.ofNat_add]
  congr 1
  grind

@[simp] theorem seqAt_zero (base : TcpSeq) : seqAt base 0 = base := by
  simp [seqAt, TcpSeq.add]

/-- Differences do not depend on the base. -/
theorem seqAt_sub (base : TcpSeq) (a b : Nat) :
    (seqAt base a).sub (seqAt base b) = UInt32.ofNat a - UInt32.ofNat b := by
  simp only [seqAt, TcpSeq.add, TcpSeq.sub]
  grind

theorem seqAt_diff (base : TcpSeq) (a b : Nat) :
    (seqAt base a).diff (seqAt base b) = Serial.diff (UInt32.ofNat a) (UInt32.ofNat b) := by
  have h := seqAt_sub base a b
  simp only [TcpSeq.sub] at h
  simp only [TcpSeq.diff, Serial.diff, h]

theorem seqAt_lt (base : TcpSeq) {a b : Nat} (h₁ : a < b + 2 ^ 31) (h₂ : b ≤ a + 2 ^ 31) :
    (seqAt base a).lt (seqAt base b) = decide (a < b) := by
  rw [TcpSeq.lt, seqAt_diff, decide_eq_decide, Serial.diff_ofNat_neg_iff h₁ h₂]

theorem seqAt_le (base : TcpSeq) {a b : Nat} (h₁ : b < a + 2 ^ 31) (h₂ : a ≤ b + 2 ^ 31) :
    (seqAt base a).le (seqAt base b) = decide (a ≤ b) := by
  rw [TcpSeq.le, TcpSeq.gt, seqAt_lt base h₁ h₂]
  by_cases h : b < a
  · rw [decide_eq_true h, decide_eq_false (by omega), Bool.not_true]
  · rw [decide_eq_false h, decide_eq_true (by omega), Bool.not_false]

theorem seqAt_ge (base : TcpSeq) {a b : Nat} (h₁ : a < b + 2 ^ 31) (h₂ : b ≤ a + 2 ^ 31) :
    (seqAt base a).ge (seqAt base b) = decide (b ≤ a) := by
  rw [TcpSeq.ge, seqAt_lt base h₁ h₂]
  by_cases h : a < b
  · rw [decide_eq_true h, decide_eq_false (by omega), Bool.not_true]
  · rw [decide_eq_false h, decide_eq_true (by omega), Bool.not_false]

/-- Positions less than 2³² apart have different sequence numbers. -/
theorem seqAt_eq_iff (base : TcpSeq) {a b : Nat} (h₁ : a < b + 2 ^ 32) (h₂ : b < a + 2 ^ 32) :
    seqAt base a = seqAt base b ↔ a = b := by
  refine ⟨fun h => ?_, fun h => by rw [h]⟩
  have h0 : UInt32.ofNat a - UInt32.ofNat b = 0 := by
    rw [← seqAt_sub base a b, h]
    simp [TcpSeq.sub]
  have ht := congrArg UInt32.toNat h0
  rw [Serial.toNat_sub, Serial.ofNat_toNat_mod, Serial.ofNat_toNat_mod] at ht
  have ht' : (a % 2 ^ 32 + (2 ^ 32 - b % 2 ^ 32)) % 2 ^ 32 = 0 := ht
  omega

/-- The trim amount between two positions. -/
theorem seqAt_trim (base : TcpSeq) {a b : Nat} (h₁ : a ≤ b) (h₂ : b < a + 2 ^ 31) :
    sizeOfInt ((seqAt base b).diff (seqAt base a)) = b - a := by
  have hn : ¬ Serial.diff (UInt32.ofNat b) (UInt32.ofNat a) < 0 := by
    rw [Serial.diff_ofNat_neg_iff h₂ (by omega)]
    omega
  rw [seqAt_diff, Serial.diff_of_nonneg hn, Serial.toNat_ofNat_sub h₁ (by omega), sizeOfInt]
  omega

/-- Sequence numbers spanning less than 2³¹ are ordered like the stream positions. -/
theorem OffsetWindow.tcpSeq (base : TcpSeq) (lo hi : Nat) (h : hi < lo + 2 ^ 31) :
    OffsetWindow (seqAt base) lo hi where
  add a n _ _ := seqAt_add base a n
  sub a b _ _ _ := seqAt_trim base (by omega) (by omega)
  lt a b _ _ _ _ := seqAt_lt base (by omega) (by omega)
  le a b _ _ _ _ := seqAt_le base (by omega) (by omega)

end Seastar.Net.Tcp
