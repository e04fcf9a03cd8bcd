import Seastar.Rpc.Buffer

/-!
Compressors of rpc frames: the interface of `rpc/rpc_types.hh`, and `lz4_compressor` over the
block functions of the LZ4 library.
-/

namespace Seastar.Rpc

open Lib

/-- `compressor`: either direction may throw. -/
structure Compressor where
  compress : Nat → SndBuf → Except Fault SndBuf
  decompress : RcvBuf → Except Fault RcvBuf

/-- What a compressor is for. `compress` leaves the head space at the beginning of the buffer it
returns, and `decompress` gives the data back, without empty buffers in it. -/
structure Compressor.RoundTrips (c : Compressor) : Prop where
  headSpace : ∀ {n : Nat} {data out : SndBuf}, c.compress n data = .ok out → n ≤ chunkSize →
    data.size.toNat = data.bytes.length →
      ∃ head payload : Bytes, head.length = n ∧ out.Headed head payload
  inverse : ∀ {n : Nat} {data out : SndBuf} {head payload : Bytes},
    c.compress n data = .ok out → data.size.toNat = data.bytes.length → data.bytes ≠ [] →
      n ≤ chunkSize → head.length = n → out.Headed head payload →
        ∀ rb : RcvBuf, rb.size.toNat = payload.length → rb.bufs.bytes = payload →
          ∃ eb, c.decompress rb = .ok eb ∧ eb.bufs.bytes = data.bytes ∧ [] ∉ eb.bufs.toList

/-! ## LZ4 -/

/-- The block functions of the library: `LZ4_compress_default`, which fails with zero, and
`LZ4_decompress_fast`, which is told the size of the original and fails with a negative result. -/
structure Lz4 where
  compress : Bytes → Option Bytes
  decompressFast : Bytes → Nat → Option Bytes

/-- The library gives back what it has compressed, and does not compress more than two
gigabytes. -/
structure Lz4.Inverse (a : Lz4) : Prop where
  bound : ∀ {src dst : Bytes}, a.compress src = some dst → dst.length < 2 ^ 31
  inverse : ∀ {src dst : Bytes}, a.compress src = some dst →
    a.decompressFast dst src.length = some src

/-- `linearize`: the buffers copied into one of the size. -/
def linearize (v : Bufs) (size : UInt32) : Except Fault Bytes :=
  match v with
  | .one b => .ok b
  | .fragments bufs =>
    if bufs.flatten.length ≤ size.toNat then
      .ok (bufs.flatten ++ List.replicate (size.toNat - bufs.flatten.length) 0)
    else .error .writePast

/-- `lz4_compressor`. -/
def lz4Compressor (a : Lz4) : Compressor where
  compress headSpace data := do
    let src ← linearize data.bufs data.size
    match a.compress src with
    | none => .error .compressionFailed
    | some dst =>
      let dst := List.replicate headSpace 0 ++ le32 data.size ++ dst
      .ok ⟨UInt32.ofNat dst.length, .one dst⟩
  decompress data :=
    if data.size < 4 then .ok {}
    else do
      let size ← readLe32 data.bufs.bytes 0
      if size ≠ 0 then do
        let src ← linearize data.bufs data.size
        match a.decompressFast (src.drop 4) size.toNat with
        | none => .error .compressionFailed
        | some dst => .ok ⟨size, .one dst⟩
      else .ok data

theorem linearize_eq {v : Bufs} {size : UInt32} (h : size.toNat = v.bytes.length) :
    linearize v size = .ok v.bytes := by
  cases v with
  | one b => simp [linearize]
  | fragments bufs =>
    rw [Bufs.bytes_fragments] at h
    rw [linearize, if_pos (Nat.le_of_eq h.symm), h, Nat.sub_self]
    simp

/-- `compress` returns what the library makes of the payload behind its size and the head space. -/
theorem lz4_compress_ok {a : Lz4} {n : Nat} {data out : SndBuf}
    (hsize : data.size.toNat = data.bytes.length) :
    (lz4Compressor a).compress n data = .ok out ↔
      ∃ dst, a.compress data.bytes = some dst ∧
        out = ⟨.ofNat (List.replicate n 0 ++ le32 data.size ++ dst).length,
          .one (List.replicate n 0 ++ le32 data.size ++ dst)⟩ := by
  have hsrc : linearize data.bufs data.size = .ok data.bytes := linearize_eq hsize
  simp only [lz4Compressor, hsrc, ok_bind]
  cases a.compress data.bytes with
  | none => simp
  | some dst =>
    constructor
    · intro h
      exact ⟨dst, rfl, (Except.ok.inj h).symm⟩
    · rintro ⟨dst', hdst, rfl⟩
      obtain rfl := Option.some.inj hdst
      rfl

/-- `decompress` reads the size at the front of any message of four bytes or more. -/
theorem lz4_decompress_size {a : Lz4} {rb : RcvBuf} {size : UInt32} {rest : Bytes}
    (hrb : rb.size.toNat = rb.bufs.bytes.length) (hbytes : rb.bufs.bytes = le32 size ++ rest) :
    (lz4Compressor a).decompress rb =
      if size ≠ 0 then
        match a.decompressFast rest size.toNat with
        | none => .error .compressionFailed
        | some dst => .ok ⟨size, .one dst⟩
      else .ok rb := by
  have hread := readLe32_append [] size rest
  rw [List.nil_append] at hread
  have hfour : ¬ rb.size < 4 := by
    rw [UInt32.lt_iff_toNat_lt, hrb, hbytes, List.length_append, length_le32]
    exact Nat.not_lt.mpr (Nat.le_add_right 4 _)
  have hdrop : (le32 size ++ rest).drop 4 = rest := List.drop_left' (length_le32 _)
  simp only [lz4Compressor, hfour, if_false]
  rw [linearize_eq hrb, hbytes]
  simp only [List.length_nil] at hread
  rw [hread, ok_bind, ok_bind, hdrop]

/-- What the library compressed is decompressed. -/
theorem lz4_decompress_compressed {a : Lz4} (ha : a.Inverse) {src dst : Bytes} {size : UInt32}
    {rb : RcvBuf} (hdst : a.compress src = some dst) (hne : src ≠ [])
    (hsize : size.toNat = src.length) (hrb : rb.size.toNat = rb.bufs.bytes.length)
    (hbytes : rb.bufs.bytes = le32 size ++ dst) :
    (lz4Compressor a).decompress rb = .ok ⟨size, .one src⟩ := by
  have hpos : size ≠ 0 := by
    intro h0
    rw [h0] at hsize
    exact hne (List.eq_nil_of_length_eq_zero hsize.symm)
  rw [lz4_decompress_size hrb hbytes, if_pos hpos, hsize, ha.inverse hdst]

/-- A frame that is compressed with LZ4 is a frame again. -/
theorem lz4Compressor_roundTrips {a : Lz4} (ha : a.Inverse) : (lz4Compressor a).RoundTrips := by
  have hcompress : ∀ {n : Nat} {data out : SndBuf}, (lz4Compressor a).compress n data = .ok out →
      data.size.toNat = data.bytes.length → n ≤ chunkSize → ∃ dst,
        a.compress data.bytes = some dst ∧
          out.Headed (List.replicate n 0) (le32 data.size ++ dst) := by
    intro n data out h hsize hn
    obtain ⟨dst, hdst, rfl⟩ := (lz4_compress_ok hsize).mp h
    have hbound := ha.bound hdst
    have hchunk : chunkSize = 131072 := rfl
    refine ⟨dst, hdst, ⟨_, rfl, ?_⟩, ?_, ?_⟩
    · simp only [List.length_append]
      omega
    · simp [SndBuf.bytes]
    · simp only [List.length_append, List.length_replicate, length_le32,
        UInt32.toNat_ofNat']
      rw [Nat.mod_eq_of_lt (by omega)]
      omega
  refine ⟨fun h hn hsize => ?_, fun {n data out head payload} h hsize hne hn hlen hh rb hrb hbytes => ?_⟩
  · obtain ⟨dst, -, hh⟩ := hcompress h hsize hn
    exact ⟨_, _, List.length_replicate, hh⟩
  · obtain ⟨dst, hdst, hh'⟩ := hcompress h hsize hn
    have hsplit := hh.bytes.symm.trans hh'.bytes
    obtain ⟨-, rfl⟩ := List.append_inj hsplit (by rw [hlen, List.length_replicate])
    rw [← hbytes] at hrb
    refine ⟨_, lz4_decompress_compressed ha hdst hne hsize hrb hbytes, by simp, ?_⟩
    intro hmem
    exact hne (List.mem_singleton.mp hmem).symm

/-- The front of a block of `n` literals: the token, and the length that does not fit it. -/
def Lz4.literalLength (n : Nat) : Bytes :=
  if n < 15 then [UInt8.ofNat (16 * n)]
  else 240 :: (List.replicate ((n - 15) / 255) 255 ++ [UInt8.ofNat ((n - 15) % 255)])

/-- The blocks of literals only, which is what the library makes of a short input. -/
def Lz4.literals : Lz4 where
  compress src :=
    if src.length ≤ 0x7e000000 then some (literalLength src.length ++ src) else none
  decompressFast src n := some ((src.drop (literalLength n).length).take n)

theorem Lz4.literals_inverse : Lz4.literals.Inverse where
  bound := by
    intro src dst h
    simp only [literals] at h
    split at h
    · obtain rfl := Option.some.inj h
      rw [List.length_append, literalLength]
      split
      · simp only [List.length_singleton]
        omega
      · simp only [List.length_cons, List.length_append, List.length_replicate, List.length_nil]
        omega
    · cases h
  inverse := by
    intro src dst h
    simp only [literals] at h ⊢
    split at h
    · obtain rfl := Option.some.inj h
      rw [List.drop_left, List.take_length]
    · cases h

end Seastar.Rpc
