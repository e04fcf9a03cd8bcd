import Seastar.Core.Fault
import Seastar.Lib.LittleEndian

/-!
Reading and writing the memory of a buffer, as `read_le`, `write_le` and `std::copy_n`
do it through a pointer: every access has to lie inside of the buffer.
-/

namespace Seastar.Rpc

open Lib

abbrev Bytes := List UInt8

/-- The bytes of a `uint32_t`. -/
def le32 (v : UInt32) : Bytes := LittleEndian.encode 4 v.toNat

/-- The bytes of a `uint64_t`. -/
def le64 (v : UInt64) : Bytes := LittleEndian.encode 8 v.toNat

@[simp] theorem length_le32 (v : UInt32) : (le32 v).length = 4 := LittleEndian.length_encode 4 _

@[simp] theorem length_le64 (v : UInt64) : (le64 v).length = 8 := LittleEndian.length_encode 8 _

/-- `n` bytes of a buffer, from `pos` on. -/
def readBytes (mem : Bytes) (pos n : Nat) : Except Fault Bytes :=
  if pos + n ≤ mem.length then .ok ((mem.drop pos).take n) else .error .readPast

/-- `read_le<uint32_t>`. -/
def readLe32 (mem : Bytes) (pos : Nat) : Except Fault UInt32 := do
  let bs ← readBytes mem pos 4
  .ok (UInt32.ofNat (LittleEndian.decode bs))

/-- `read_le<uint64_t>`. -/
def readLe64 (mem : Bytes) (pos : Nat) : Except Fault UInt64 := do
  let bs ← readBytes mem pos 8
  .ok (UInt64.ofNat (LittleEndian.decode bs))

/-- `read_le<int64_t>`. -/
def readLeInt64 (mem : Bytes) (pos : Nat) : Except Fault Int64 := do
  let v ← readLe64 mem pos
  .ok v.toInt64

/-- Write the bytes into a buffer, from `pos` on. -/
def writeBytes (mem : Bytes) (pos : Nat) (bs : Bytes) : Except Fault Bytes :=
  if pos + bs.length ≤ mem.length then
    .ok (mem.take pos ++ bs ++ mem.drop (pos + bs.length))
  else .error .writePast

/-- The bytes behind a prefix. -/
theorem readBytes_append (pre bs post : Bytes) :
    readBytes (pre ++ bs ++ post) pre.length bs.length = .ok bs := by
  rw [readBytes, if_pos (by simp only [List.length_append]; omega), List.append_assoc,
    List.drop_left, List.take_left]

theorem decode_le32 (v : UInt32) : UInt32.ofNat (LittleEndian.decode (le32 v)) = v := by
  have hv : v.toNat < 256 ^ 4 := v.toNat_lt
  rw [le32, LittleEndian.decode_encode, Nat.mod_eq_of_lt hv, UInt32.ofNat_toNat]

theorem decode_le64 (v : UInt64) : UInt64.ofNat (LittleEndian.decode (le64 v)) = v := by
  have hv : v.toNat < 256 ^ 8 := v.toNat_lt
  rw [le64, LittleEndian.decode_encode, Nat.mod_eq_of_lt hv, UInt64.ofNat_toNat]

theorem readLe32_append (pre : Bytes) (v : UInt32) (post : Bytes) :
    readLe32 (pre ++ le32 v ++ post) pre.length = .ok v := by
  have h := readBytes_append pre (le32 v) post
  rw [length_le32] at h
  rw [readLe32, h, ok_bind, decode_le32]

theorem readLe64_append (pre : Bytes) (v : UInt64) (post : Bytes) :
    readLe64 (pre ++ le64 v ++ post) pre.length = .ok v := by
  have h := readBytes_append pre (le64 v) post
  rw [length_le64] at h
  rw [readLe64, h, ok_bind, decode_le64]

theorem readLeInt64_append (pre : Bytes) (v : Int64) (post : Bytes) :
    readLeInt64 (pre ++ le64 v.toUInt64 ++ post) pre.length = .ok v := by
  rw [readLeInt64, readLe64_append, ok_bind, UInt64.toInt64, Int64.toUInt64]

/-- Reads inside of the buffer succeed. -/
theorem readLe32_ok (mem : Bytes) (pos : Nat) (h : pos + 4 ≤ mem.length) :
    ∃ v, readLe32 mem pos = .ok v := by
  rw [readLe32, readBytes, if_pos h]
  exact ⟨_, rfl⟩

/-- Four bytes are those of the number they are read as. -/
theorem le32_decode {bs : Bytes} (h : bs.length = 4) :
    le32 (UInt32.ofNat (LittleEndian.decode bs)) = bs := by
  have hlt : LittleEndian.decode bs < 2 ^ 32 := by
    have hlt := LittleEndian.decode_lt bs
    rwa [h] at hlt
  rw [le32, UInt32.toNat_ofNat', Nat.mod_eq_of_lt hlt, ← h, LittleEndian.encode_decode]

/-- Writing behind a prefix. -/
theorem writeBytes_append (pre rest bs : Bytes) (h : bs.length ≤ rest.length) :
    writeBytes (pre ++ rest) pre.length bs = .ok (pre ++ bs ++ rest.drop bs.length) := by
  rw [writeBytes, if_pos (by rw [List.length_append]; omega), List.take_left,
    List.drop_length_add_append]

end Seastar.Rpc
