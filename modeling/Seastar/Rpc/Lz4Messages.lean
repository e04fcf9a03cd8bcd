import Seastar.Rpc.Compressor

/-!
Messages between two ends that use `lz4_compressor`: payloads that were compressed, and payloads
that were sent as they are behind a size of zero.
-/

namespace Seastar.Rpc

open Lib

variable {a : Lz4}

/-- The messages whose payload is `payload`, as they are received: the output of `compress` with the
head space removed, or a zero size and the payload. -/
inductive Carries (a : Lz4) : RcvBuf → Bytes → Prop
  | compressed {n : Nat} {data out : SndBuf} {rb : RcvBuf} :
    data.size.toNat = data.bytes.length → data.bytes ≠ [] →
    (lz4Compressor a).compress n data = .ok out →
    rb.size.toNat = rb.bufs.bytes.length → rb.bufs.bytes = out.bytes.drop n →
    Carries a rb data.bytes
  | plain {payload : Bytes} {rb : RcvBuf} :
    rb.size.toNat = rb.bufs.bytes.length → rb.bufs.bytes = le32 0 ++ payload →
    Carries a rb payload

/-- The payload is what `decompress` returns. -/
def Recovers (a : Lz4) (rb : RcvBuf) (payload : Bytes) : Prop :=
  ∃ eb, (lz4Compressor a).decompress rb = .ok eb ∧ eb.bufs.bytes = payload

/-- What `compress` puts behind the head space. -/
theorem compress_drop {n : Nat} {data out : SndBuf} (hsize : data.size.toNat = data.bytes.length)
    (h : (lz4Compressor a).compress n data = .ok out) :
    ∃ dst, a.compress data.bytes = some dst ∧ out.bytes.drop n = le32 data.size ++ dst := by
  obtain ⟨dst, hdst, rfl⟩ := (lz4_compress_ok hsize).mp h
  refine ⟨dst, hdst, ?_⟩
  simp only [SndBuf.bytes, Bufs.bytes_one, List.append_assoc]
  exact List.drop_left' List.length_replicate

theorem take_le32 (size : UInt32) (rest : Bytes) : (le32 size ++ rest).take 4 = le32 size :=
  List.take_left' (length_le32 size)

theorem le32_eq_zero {size : UInt32} : le32 size = [0, 0, 0, 0] ↔ size = 0 := by
  constructor
  · intro h
    rw [← decode_le32 size, h]
    rfl
  · rintro rfl
    rfl

/-- `decompress` of a compressed message returns the payload; a message that was not compressed it
returns with the size in front. -/
theorem recovers_iff (ha : a.Inverse) {rb : RcvBuf} {payload : Bytes} (h : Carries a rb payload) :
    Recovers a rb payload ↔ rb.bufs.bytes.take 4 ≠ [0, 0, 0, 0] := by
  cases h with
  | @compressed n data out _ hsize hne hout hrb hbytes =>
    obtain ⟨dst, hdst, hdrop⟩ := compress_drop hsize hout
    rw [hdrop] at hbytes
    have hpos : data.size ≠ 0 := by
      intro h0
      rw [h0] at hsize
      exact hne (List.eq_nil_of_length_eq_zero hsize.symm)
    constructor
    · intro _
      rw [hbytes, take_le32, ne_eq, le32_eq_zero]
      exact hpos
    · intro _
      exact ⟨_, lz4_decompress_compressed ha hdst hne hsize hrb hbytes, Bufs.bytes_one _⟩
  | plain hrb hbytes =>
    have hout : (lz4Compressor a).decompress rb = .ok rb := by
      rw [lz4_decompress_size hrb hbytes, if_neg (not_not.mpr rfl)]
    constructor
    · rintro ⟨eb, hok, heb⟩
      rw [hout] at hok
      obtain rfl := Except.ok.inj hok
      rw [heb] at hbytes
      have hlen := congrArg List.length hbytes
      rw [List.length_append, length_le32] at hlen
      omega
    · intro htake
      rw [hbytes, take_le32] at htake
      exact absurd rfl htake

/-- The library decides whether a payload is compressed. -/
theorem compress_isSome {n : Nat} {data : SndBuf} (hsize : data.size.toNat = data.bytes.length) :
    (∃ out, (lz4Compressor a).compress n data = .ok out) ↔ (a.compress data.bytes).isSome := by
  rw [Option.isSome_iff_exists]
  constructor
  · rintro ⟨out, hout⟩
    obtain ⟨dst, hdst, -⟩ := (lz4_compress_ok hsize).mp hout
    exact ⟨dst, hdst⟩
  · rintro ⟨dst, hdst⟩
    exact ⟨_, (lz4_compress_ok hsize).mpr ⟨dst, hdst, rfl⟩⟩

/-- Over a library that inverts itself: every payload that the library compresses is compressed,
for any head space, and the other end recovers the payload of a message if and only if the message
does not begin with a size of zero. -/
theorem lz4_recovers (ha : a.Inverse) :
    (∀ (n : Nat) (data : SndBuf), data.size.toNat = data.bytes.length →
      (a.compress data.bytes).isSome → ∃ out, (lz4Compressor a).compress n data = .ok out) ∧
    ∀ rb payload, Carries a rb payload →
      (Recovers a rb payload ↔ rb.bufs.bytes.take 4 ≠ [0, 0, 0, 0]) :=
  ⟨fun _ _ hsize hsome => (compress_isSome hsize).mpr hsome, fun _ _ h => recovers_iff ha h⟩

theorem lz4_recovers_literals : Lz4.literals.Inverse ∧
    (lz4Compressor .literals).compress 3 ⟨3, .fragments [[7], [], [8, 9]]⟩ =
      .ok ⟨11, .one [0, 0, 0, 3, 0, 0, 0, 48, 7, 8, 9]⟩ ∧
    Recovers .literals ⟨8, .fragments [[3, 0, 0], [0, 48, 7, 8], [9]]⟩ [7, 8, 9] := by
  refine ⟨Lz4.literals_inverse, rfl, ?_⟩
  have hcarries : Carries .literals ⟨8, .fragments [[3, 0, 0], [0, 48, 7, 8], [9]]⟩ [7, 8, 9] :=
    @Carries.compressed .literals 3 ⟨3, .fragments [[7], [], [8, 9]]⟩
      ⟨11, .one [0, 0, 0, 3, 0, 0, 0, 48, 7, 8, 9]⟩ _ rfl (by decide) rfl rfl rfl
  exact ((lz4_recovers Lz4.literals_inverse).2 _ _ hcarries).mpr (by decide)

/-- A payload of one byte that was sent as it is. -/
theorem lz4_plain : ¬ ∀ a : Lz4, a.Inverse → ∀ rb payload, Carries a rb payload →
    Recovers a rb payload := by
  intro h
  obtain ⟨eb, hok, heb⟩ := h .literals Lz4.literals_inverse ⟨5, .one [0, 0, 0, 0, 1]⟩ [1]
    (.plain rfl rfl)
  obtain rfl := Except.ok.inj hok
  exact absurd heb (by decide)

end Seastar.Rpc
