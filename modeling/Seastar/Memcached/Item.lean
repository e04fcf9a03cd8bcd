import Mathlib.Data.List.DropRight
import Seastar.Core.Align

/-!
`class item` of `apps/memcached/memcache.cc`. An item is one object with its key, its ascii
prefix and its value behind each other in `_data`, each at the next multiple of eight. The
offsets are computed in `uint8_t`, so they stay behind the text before them only up to 248 bytes.
-/

namespace Seastar.Memcached

abbrev Bytes := List UInt8

/-- `struct expiration`. -/
structure Expiration where
  /-- `never_expire_timepoint`, unless given -/
  time : Int64 := Int64.minValue
  deriving DecidableEq, Repr

/-- `ever_expires`. -/
def Expiration.everExpires (e : Expiration) : Bool := e.time ≠ Int64.minValue

/-- `seconds_in_a_month`. -/
def secondsInAMonth : UInt32 := 60 * 60 * 24 * 30

/-- A number of seconds in the ticks of `lowres_clock`. -/
def seconds (s : UInt32) : Int64 := Int64.ofNat (1000 * s.toNat)

/-- `expiration(wc_to_clock_type_delta, s)`. -/
def Expiration.ofSeconds (now wcToClockTypeDelta : Int64) (s : UInt32) : Expiration :=
  if s = 0 then {}
  else if s ≤ secondsInAMonth then { time := now + seconds s }
  else { time := seconds s + wcToClockTypeDelta }

/-- `struct item_insertion_data`. -/
structure Insertion where
  key : Bytes
  asciiPrefix : Bytes
  data : Bytes
  expiry : Expiration
  deriving DecidableEq, Repr

/-- What the cache is compiled with: `std::hash<sstring>` and `sizeof(item)`. -/
structure Config where
  hash : Bytes → UInt64
  sizeofItem : UInt64

/-- `field_alignment`. -/
def fieldAlignment : UInt8 := 8

/-- `align_up` of a `uint8_t`. -/
def alignUp8 (v align : UInt8) : UInt8 := (v + align - 1) &&& ~~~(align - 1)

/-- `memcpy` into a block of memory. -/
def memcpy (mem : Bytes) (pos : Nat) (bs : Bytes) : Bytes :=
  mem.take pos ++ bs ++ mem.drop (pos + bs.length)

/-- The text of `n` bytes at a position. -/
def readAt (mem : Bytes) (pos n : Nat) : Bytes := (mem.drop pos).take n

/-- `class item`, with the identity of the object. -/
structure Item where
  id : Nat
  version : UInt64
  keyHash : UInt64
  expiry : Expiration
  valueSize : Nat
  keySize : UInt8
  asciiPrefixSize : UInt8
  data : Bytes
  deriving DecidableEq, Repr

/-- What a client can see of an item. -/
structure Entry where
  asciiPrefix : Bytes
  data : Bytes
  version : UInt64
  expiry : Expiration
  deriving DecidableEq, Repr

/-- The size of the memory that `item_size(insertion)` asks for behind the item. -/
def Insertion.dataSize (ins : Insertion) : Nat :=
  (alignUp (UInt64.ofNat ins.key.length) 8).toNat +
    (alignUp (UInt64.ofNat ins.asciiPrefix.length) 8).toNat + ins.data.length

namespace Item

/-- The offset of the ascii prefix. -/
def prefixPos (keySize : UInt8) : Nat := (alignUp8 keySize fieldAlignment).toNat

/-- The offset of the value. -/
def valuePos (keySize asciiPrefixSize : UInt8) : Nat :=
  prefixPos keySize + (alignUp8 asciiPrefixSize fieldAlignment).toNat

/-- `item(..)`, in memory of `item_size(insertion)` bytes. -/
def create (cfg : Config) (id : Nat) (ins : Insertion) (version : UInt64 := 1) : Item :=
  let keySize := UInt8.ofNat ins.key.length
  let asciiPrefixSize := UInt8.ofNat ins.asciiPrefix.length
  let data := List.replicate ins.dataSize 0
  let data := memcpy data 0 (ins.key.take keySize.toNat)
  let data := memcpy data (prefixPos keySize) (ins.asciiPrefix.take asciiPrefixSize.toNat)
  let data := memcpy data (valuePos keySize asciiPrefixSize) ins.data
  { id, version, keyHash := cfg.hash ins.key, expiry := ins.expiry
    valueSize := ins.data.length, keySize, asciiPrefixSize, data }

/-- `key`. -/
def key (it : Item) : Bytes := readAt it.data 0 it.keySize.toNat

/-- `ascii_prefix`. -/
def asciiPrefix (it : Item) : Bytes :=
  readAt it.data (prefixPos it.keySize) it.asciiPrefixSize.toNat

/-- `value`. -/
def value (it : Item) : Bytes :=
  readAt it.data (valuePos it.keySize it.asciiPrefixSize) it.valueSize

/-- `operator==`. -/
def equal (a b : Item) : Bool :=
  a.keyHash == b.keyHash && a.keySize == b.keySize && a.key == b.key

/-- `item_key_cmp`. -/
def compare (cfg : Config) (key : Bytes) (it : Item) : Bool :=
  it.keyHash == cfg.hash key && it.keySize.toNat == key.length &&
    it.key == key.take it.keySize.toNat

/-- The entry a client sees. -/
def entry (it : Item) : Entry :=
  { asciiPrefix := it.asciiPrefix, data := it.value, version := it.version, expiry := it.expiry }

end Item

/-! ## Numbers -/

def isDigit (c : UInt8) : Bool := 48 ≤ c && c ≤ 57

/-- The number that decimal digits write. -/
def decimalValue (digits : Bytes) : Nat := digits.foldl (fun n c => 10 * n + (c.toNat - 48)) 0

/-- Digits read as a `uint64_t`. -/
def unsignedOf (digits : Bytes) : Option UInt64 :=
  if digits ≠ [] ∧ digits.all isDigit ∧ decimalValue digits < 2 ^ 64 then
    some (UInt64.ofNat (decimalValue digits))
  else none

/-- `boost::lexical_cast<uint64_t>`: a sign may stand in front. -/
def lexicalCast : Bytes → Option UInt64
  | 43 :: digits => unsignedOf digits
  | 45 :: digits => (unsignedOf digits).map fun v => 0 - v
  | digits => unsignedOf digits

/-- `data_as_integral`. -/
def dataAsIntegral (value : Bytes) : Option UInt64 :=
  if value.head? = some 45 then none else lexicalCast (value.rdropWhile (· == 32))

/-- `to_sstring` of a number. -/
def toSstring (n : UInt64) : Bytes := (Nat.toDigits 10 n.toNat).map fun c => UInt8.ofNat c.toNat

example : dataAsIntegral [49, 50, 32, 32] = some 12 := by decide

example : toSstring 120 = [49, 50, 48] := by decide

/-! ## What is stored is read back -/

/-- The three texts do not run into each other: the sizes fit, and where an offset wraps around
nothing is written behind it. -/
structure Insertion.Fits (ins : Insertion) : Prop where
  key_le : ins.key.length ≤ 255
  prefix_le : ins.asciiPrefix.length ≤ 255
  key_apart : ins.key.length ≤ 248 ∨ ins.asciiPrefix = [] ∧ ins.data = []
  prefix_apart : ins.asciiPrefix.length ≤ 248 ∨ ins.data = []

/-- The key is stored as it is, and nothing is written over it. -/
def Insertion.KeyFits (ins : Insertion) : Prop :=
  ins.key.length ≤ 248 ∨ ins.key.length ≤ 255 ∧ ins.asciiPrefix = [] ∧ ins.data = []

instance (ins : Insertion) : Decidable ins.KeyFits :=
  inferInstanceAs (Decidable (_ ∨ _))

instance (ins : Insertion) : Decidable ins.Fits :=
  decidable_of_iff (ins.key.length ≤ 255 ∧ ins.asciiPrefix.length ≤ 255 ∧
      (ins.key.length ≤ 248 ∨ ins.asciiPrefix = [] ∧ ins.data = []) ∧
      (ins.asciiPrefix.length ≤ 248 ∨ ins.data = []))
    ⟨fun h => ⟨h.1, h.2.1, h.2.2.1, h.2.2.2⟩, fun h => ⟨h.1, h.2, h.3, h.4⟩⟩

section Memory

variable {mem bs : Bytes} {pos : Nat}

theorem length_memcpy (h : pos + bs.length ≤ mem.length) :
    (memcpy mem pos bs).length = mem.length := by
  simp only [memcpy, List.length_append, List.length_take, List.length_drop]
  omega

@[simp] theorem memcpy_nil (mem : Bytes) (pos : Nat) : memcpy mem pos [] = mem := by
  simp [memcpy]

theorem readAt_memcpy_same (h : pos + bs.length ≤ mem.length) :
    readAt (memcpy mem pos bs) pos bs.length = bs := by
  have hpos : (mem.take pos).length = pos := List.length_take_of_le (by omega)
  rw [readAt, memcpy, List.append_assoc, List.drop_left' hpos, List.take_left]

/-- What stands in front of the bytes written stays. -/
theorem readAt_memcpy_before {off n : Nat} (hn : off + n ≤ pos) (h : off + n ≤ mem.length) :
    readAt (memcpy mem pos bs) off n = readAt mem off n := by
  have hpos : (mem.take pos).length = min pos mem.length := List.length_take
  rw [readAt, memcpy, List.append_assoc, List.drop_append_of_le_length (by omega),
    List.take_append_of_le_length (by rw [List.length_drop]; omega), List.drop_take,
    List.take_take, Nat.min_eq_left (by omega)]
  rfl

theorem le_length_memcpy (bs : Bytes) {n : Nat} (hn : n ≤ pos) (h : n ≤ mem.length) :
    n ≤ (memcpy mem pos bs).length := by
  simp only [memcpy, List.length_append, List.length_take]
  omega

/-- Two texts that are written behind each other are both read back; a position at which nothing is
written does not matter. -/
theorem readAt_two {p v : Bytes} {i j : Nat} (hi : p = [] ∧ v = [] ∨ i + p.length ≤ mem.length)
    (hj : v = [] ∨ i + p.length ≤ j ∧ j + v.length ≤ mem.length) :
    readAt (memcpy (memcpy mem i p) j v) i p.length = p ∧
      readAt (memcpy (memcpy mem i p) j v) j v.length = v := by
  have hnil : ∀ (m : Bytes) (n : Nat), readAt m n 0 = [] := fun m n => List.take_zero
  rcases hi with ⟨rfl, rfl⟩ | hi
  · exact ⟨hnil _ _, hnil _ _⟩
  · have hlen : (memcpy mem i p).length = mem.length := length_memcpy hi
    have hp : readAt (memcpy mem i p) i p.length = p := readAt_memcpy_same hi
    rcases hj with rfl | ⟨hj, hj'⟩
    · rw [memcpy_nil]
      exact ⟨hp, hnil _ _⟩
    · refine ⟨?_, readAt_memcpy_same (by omega)⟩
      rw [readAt_memcpy_before (by omega) (by omega), hp]

end Memory

/-- An offset that does not wrap around is the size rounded up. -/
theorem toNat_alignUp8 {n : Nat} (h : n ≤ 248) :
    (alignUp8 (UInt8.ofNat n) fieldAlignment).toNat = (n + 7) / 8 * 8 := by
  have hall : ∀ m : Fin 249,
      (alignUp8 (UInt8.ofNat m) fieldAlignment).toNat = ((m : Nat) + 7) / 8 * 8 := by decide +kernel
  exact hall ⟨n, Nat.lt_succ_of_le h⟩

/-- ... and one that wraps around is smaller. -/
theorem toNat_alignUp8_le (n : Nat) :
    (alignUp8 (UInt8.ofNat n) fieldAlignment).toNat ≤ (n + 7) / 8 * 8 := by
  have hall : ∀ m : Fin 256,
      (alignUp8 (UInt8.ofNat m) fieldAlignment).toNat ≤ ((m : Nat) + 7) / 8 * 8 := by decide +kernel
  have hmod : UInt8.ofNat n = UInt8.ofNat (n % 256) := by
    rw [← UInt8.ofNat_mod_size]
  have hle := hall ⟨n % 256, Nat.mod_lt _ (by decide)⟩
  rw [hmod]
  dsimp only at hle
  omega

theorem toNat_alignUp_size {n : Nat} (h : n < 2 ^ 32) :
    (alignUp (UInt64.ofNat n) 8).toNat = (n + 7) / 8 * 8 := by
  have hn : (UInt64.ofNat n).toNat = n := UInt64.toNat_ofNat_of_lt' (by
    show n < 2 ^ 64
    omega)
  have height : (8 : UInt64).toNat = 8 := rfl
  rw [toNat_alignUp ⟨3, by decide, rfl⟩ (by rw [hn, height]; omega), hn, height]
  omega

theorem toNat_size {n : Nat} (h : n ≤ 255) : (UInt8.ofNat n).toNat = n :=
  UInt8.toNat_ofNat_of_lt' (Nat.lt_succ_of_le h)

namespace Item

variable {ins : Insertion}

/-- A key that fits is read back, whatever is stored behind it. -/
theorem key_create (cfg : Config) (id : Nat) (version : UInt64) (h : ins.KeyFits) :
    (create cfg id ins version).key = ins.key := by
  have hle : ins.key.length ≤ 255 := by
    rcases h with h | h
    · omega
    · exact h.1
  have hsize : ins.key.length ≤ ins.dataSize := by
    rw [Insertion.dataSize, toNat_alignUp_size (Nat.lt_of_le_of_lt hle (by decide))]
    omega
  have hkey : readAt (memcpy (List.replicate ins.dataSize 0) 0 ins.key) 0 ins.key.length =
      ins.key := readAt_memcpy_same (by rw [List.length_replicate]; omega)
  have hlen : ins.key.length ≤ (memcpy (List.replicate ins.dataSize 0) 0 ins.key).length := by
    rw [length_memcpy] <;> rw [List.length_replicate] <;> omega
  simp only [key, create, toNat_size hle, List.take_length]
  rcases h with hk | ⟨-, hp, hd⟩
  · have hpos : prefixPos (UInt8.ofNat ins.key.length) = (ins.key.length + 7) / 8 * 8 :=
      toNat_alignUp8 hk
    have hval : prefixPos (UInt8.ofNat ins.key.length) ≤
        valuePos (UInt8.ofNat ins.key.length) (UInt8.ofNat ins.asciiPrefix.length) :=
      Nat.le_add_right _ _
    have hlen' := le_length_memcpy (ins.asciiPrefix.take (UInt8.ofNat ins.asciiPrefix.length).toNat)
      (show ins.key.length ≤ prefixPos (UInt8.ofNat ins.key.length) by omega) hlen
    rw [readAt_memcpy_before (by omega) (by omega), readAt_memcpy_before (by omega) (by omega), hkey]
  · rw [hp, hd, List.take_nil, memcpy_nil, memcpy_nil, hkey]

/-- The ascii prefix and the value are read back, whatever the key is. -/
theorem tail_create (cfg : Config) (id : Nat) (version : UInt64) (hkey : ins.key.length < 2 ^ 32)
    (hpre : ins.asciiPrefix.length ≤ 248 ∨ ins.asciiPrefix.length ≤ 255 ∧ ins.data = []) :
    (create cfg id ins version).asciiPrefix = ins.asciiPrefix ∧
      (create cfg id ins version).value = ins.data := by
  have hle : ins.asciiPrefix.length ≤ 255 := by
    rcases hpre with h | h
    · omega
    · exact h.1
  have hsize : ins.dataSize = (ins.key.length + 7) / 8 * 8 +
      (ins.asciiPrefix.length + 7) / 8 * 8 + ins.data.length := by
    rw [Insertion.dataSize, toNat_alignUp_size hkey,
      toNat_alignUp_size (Nat.lt_of_le_of_lt hle (by decide))]
  have hpos : prefixPos (UInt8.ofNat ins.key.length) ≤ (ins.key.length + 7) / 8 * 8 :=
    toNat_alignUp8_le _
  have hval : ins.asciiPrefix.length ≤ 248 →
      valuePos (UInt8.ofNat ins.key.length) (UInt8.ofNat ins.asciiPrefix.length) =
        prefixPos (UInt8.ofNat ins.key.length) + (ins.asciiPrefix.length + 7) / 8 * 8 := by
    intro hp
    rw [valuePos, toNat_alignUp8 hp]
  have hmem : (memcpy (List.replicate ins.dataSize 0) 0
      (ins.key.take (UInt8.ofNat ins.key.length).toNat)).length = ins.dataSize := by
    rw [length_memcpy, List.length_replicate]
    rw [List.length_replicate, List.length_take]
    omega
  simp only [asciiPrefix, value, create, toNat_size hle, List.take_length]
  apply readAt_two
  · rw [hmem]
    exact Or.inr (by omega)
  · rw [hmem]
    rcases hpre with hp | ⟨-, hnil⟩
    · have := hval hp
      exact Or.inr (by omega)
    · exact Or.inl hnil

/-- What fits is read back. -/
theorem reads_create (cfg : Config) (id : Nat) (version : UInt64) (h : ins.Fits) :
    (create cfg id ins version).key = ins.key ∧
      (create cfg id ins version).asciiPrefix = ins.asciiPrefix ∧
      (create cfg id ins version).value = ins.data := by
  have hkey : ins.KeyFits := h.key_apart.imp_right fun hnil => ⟨h.key_le, hnil⟩
  have hlt : ins.key.length < 2 ^ 32 := Nat.lt_of_le_of_lt h.key_le (by decide)
  exact ⟨key_create cfg id version hkey,
    tail_create cfg id version hlt (h.prefix_apart.imp_right fun hnil => ⟨h.prefix_le, hnil⟩)⟩

end Item

end Seastar.Memcached
