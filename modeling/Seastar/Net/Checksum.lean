import Seastar.Net.Packet

/-!
`checksummer` of `net/ip_checksum.hh` and `net/ip_checksum.cc`: the ones' complement
sum of a byte string given in pieces, accumulated in a wide integer and folded
at the end.
-/

namespace Seastar.Net

/-- `struct checksummer`. -/
structure Checksummer where
  csum : Nat := 0
  odd : Bool := false
  deriving DecidableEq, Repr

/-- The value of bytes in network order. -/
def beNat (bs : Bytes) : Nat := bs.foldl (fun n b => n * 256 + b.toNat) 0

namespace Checksummer

/-- The word loops of `sum(data, len)`: eight bytes at a time, then two, then the
last one in the high half of a word. -/
def words (acc : Nat) : Bytes → Nat
  | b₀ :: b₁ :: b₂ :: b₃ :: b₄ :: b₅ :: b₆ :: b₇ :: rest =>
    words (acc + beNat [b₀, b₁, b₂, b₃, b₄, b₅, b₆, b₇]) rest
  | b₀ :: b₁ :: rest => words (acc + beNat [b₀, b₁]) rest
  | [b] => acc + b.toNat * 256
  | [] => acc

/-- `sum(const char*, size_t)`. After an odd piece the first byte is read before
the length is looked at. -/
def sum (c : Checksummer) (data : Bytes) : Except Fault Checksummer :=
  let odd := c.odd != (data.length % 2 == 1)
  if c.odd then
    match data with
    | [] => .error .readPast
    | b :: rest => .ok ⟨words (c.csum + b.toNat) rest, odd⟩
  else .ok ⟨words c.csum data, odd⟩

/-- `sum(const packet&)`. -/
def sumFrags (c : Checksummer) : List Bytes → Except Fault Checksummer
  | [] => .ok c
  | f :: fs => do
    let c ← c.sum f
    sumFrags c fs

/-- `sum(uint8_t)`. -/
def sum8 (c : Checksummer) (x : UInt8) : Checksummer :=
  if c.odd then ⟨c.csum + x.toNat, false⟩ else ⟨c.csum + x.toNat * 256, true⟩

/-- `sum(uint16_t)`. -/
def sum16 (c : Checksummer) (x : UInt16) : Checksummer :=
  if c.odd then (c.sum8 (x >>> 8).toUInt8).sum8 x.toUInt8 else ⟨c.csum + x.toNat, c.odd⟩

/-- `sum(uint32_t)`. -/
def sum32 (c : Checksummer) (x : UInt32) : Checksummer :=
  if c.odd then (c.sum16 x.toUInt16).sum16 (x >>> 16).toUInt16 else ⟨c.csum + x.toNat, c.odd⟩

/-- The folding of `get()`: to 64 bits, to the sum of four words, to 16 bits. -/
def fold (csum : Nat) : Nat :=
  let csum1 := csum % 2 ^ 64 + csum / 2 ^ 64
  let c := (csum1 % 2 ^ 64 + csum1 / 2 ^ 64) % 2 ^ 64
  let c := c % 2 ^ 16 + c / 2 ^ 16 % 2 ^ 16 + c / 2 ^ 32 % 2 ^ 16 + c / 2 ^ 48
  let c := c % 2 ^ 16 + c / 2 ^ 16
  c % 2 ^ 16 + c / 2 ^ 16

/-- `get()`, before `htons`. -/
def get (c : Checksummer) : UInt16 := UInt16.ofNat (65535 - fold c.csum)

/-- `a` and `b` stand for the same ones' complement sum: they agree modulo 2¹⁶ - 1,
and zero only for zero. -/
def SameSum (a b : Nat) : Prop := a % 65535 = b % 65535 ∧ (a = 0 ↔ b = 0)

theorem SameSum.trans {a b c : Nat} (h : SameSum a b) (h' : SameSum b c) : SameSum a c :=
  ⟨h.1.trans h'.1, h.2.trans h'.2⟩

/-- One end-around carry, for any word size that is a multiple of 16 bits. -/
theorem carry_same (m n : Nat) :
    SameSum (n % (65535 * m + 1) + n / (65535 * m + 1)) n := by
  have h := Nat.div_add_mod n (65535 * m + 1)
  generalize n / (65535 * m + 1) = q at h ⊢
  generalize n % (65535 * m + 1) = r at h ⊢
  rw [← h, Nat.add_mul, Nat.one_mul, Nat.mul_assoc]
  refine ⟨by omega, fun h => ?_, fun h => ?_⟩
  · obtain ⟨hr, hq⟩ := Nat.add_eq_zero_iff.mp h
    rw [hr, hq]
    simp
  · omega

/-- The sum of the four words of a 64-bit number. -/
theorem words_same (c : Nat) :
    SameSum (c % 2 ^ 16 + c / 2 ^ 16 % 2 ^ 16 + c / 2 ^ 32 % 2 ^ 16 + c / 2 ^ 48) c := by
  have h₁ : c / 2 ^ 32 = c / 2 ^ 16 / 2 ^ 16 := by rw [Nat.div_div_eq_div_mul, ← Nat.pow_add]
  have h₂ : c / 2 ^ 48 = c / 2 ^ 16 / 2 ^ 16 / 2 ^ 16 := by
    rw [Nat.div_div_eq_div_mul, Nat.div_div_eq_div_mul, ← Nat.pow_add, ← Nat.pow_add]
  rw [h₁, h₂]
  exact ⟨by omega, by omega⟩

theorem carry64_lt (n : Nat) (h : n < 2 ^ 127) : n % 2 ^ 64 + n / 2 ^ 64 < 2 ^ 65 - 1 := by omega

theorem carry64_lt' (n : Nat) (h : n < 2 ^ 65 - 1) : n % 2 ^ 64 + n / 2 ^ 64 < 2 ^ 64 := by omega

theorem words_lt (c : Nat) (h : c < 2 ^ 64) :
    c % 2 ^ 16 + c / 2 ^ 16 % 2 ^ 16 + c / 2 ^ 32 % 2 ^ 16 + c / 2 ^ 48 < 2 ^ 18 := by
  omega

theorem carry16_le (c : Nat) (h : c < 2 ^ 18) :
    (c % 2 ^ 16 + c / 2 ^ 16) % 2 ^ 16 + (c % 2 ^ 16 + c / 2 ^ 16) / 2 ^ 16 ≤ 65535 := by
  omega

/-- Folding yields 16 bits of the same sum. -/
theorem fold_spec (n : Nat) (h : n < 2 ^ 127) : fold n ≤ 65535 ∧ SameSum (fold n) n := by
  have ha := carry_same 281479271743489 n
  have ha_lt := carry64_lt n h
  have hb := carry_same 281479271743489 (n % 2 ^ 64 + n / 2 ^ 64)
  have hb_lt := carry64_lt' _ ha_lt
  simp only [fold]
  rw [Nat.mod_eq_of_lt hb_lt]
  refine ⟨carry16_le _ (words_lt _ hb_lt), ?_⟩
  exact (carry_same 1 _).trans ((carry_same 1 _).trans ((words_same _).trans (hb.trans ha)))

end Checksummer

end Seastar.Net
