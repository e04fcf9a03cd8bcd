import Seastar.Core.Align
import Seastar.IO.AppendChallengedFile

/-!
The reads of `append_challenged_posix_file_impl`, into one buffer and into a vector of them. A read
ends at the logical size, rounded up to the alignment: a vector is shortened for that before it is
handed to `posix_file_impl::read_dma`, which submits it.
-/

namespace Seastar

namespace AppendChallengedFile

/-- `iovec`; buffers are numbered. -/
structure Iovec where
  base : Nat
  len : UInt64
  deriving DecidableEq, Repr

/-- Where a byte of the file goes: to a buffer, or into the array of the vector. -/
inductive Place
  | buffer (base offset : Nat)
  | iovecs (offset : Nat)
  deriving DecidableEq, Repr

/-- What `aio_buf` points to. -/
inductive AioBuf
  | buffer (base : Nat)
  | iovecs
  deriving DecidableEq, Repr

/-- `iocb` of the command `IOCB_CMD_PREAD`. -/
structure Iocb where
  offset : UInt64
  buf : AioBuf
  nbytes : UInt64
  deriving DecidableEq, Repr

/-- `make_read_iocb`. -/
def makeReadIocb (offset : UInt64) (buf : AioBuf) (len : UInt64) : Iocb :=
  { offset, buf, nbytes := len }

/-- Where the kernel puts the bytes, in the order of the file. -/
def Iocb.places (io : Iocb) : List Place :=
  match io.buf with
  | .buffer base => (List.range io.nbytes.toNat).map (.buffer base)
  | .iovecs => (List.range io.nbytes.toNat).map .iovecs

/-- The places of a vector, buffer after buffer. -/
def Iovec.places (iov : List Iovec) : List Place :=
  iov.flatMap fun v => (List.range v.len.toNat).map (.buffer v.base)

/-- The lengths of a vector together. -/
def Iovec.total (iov : List Iovec) : Nat := (iov.map fun v => v.len.toNat).sum

/-- The operation that is enqueued, and what it submits. -/
structure Read where
  pos : UInt64
  len : UInt64
  io : Iocb
  deriving DecidableEq, Repr

/-- `read_dma` into a buffer; behind the logical size it reads nothing. -/
def readDma (pos : UInt64) (buffer : Nat) (len : UInt64) (s : AppendChallengedFile) :
    Option Read :=
  if s.logicalSize ≤ pos then none
  else
    let len := min (pos + len) (Seastar.alignUp s.logicalSize s.diskReadDmaAlignment) - pos
    some { pos, len, io := makeReadIocb pos (.buffer buffer) len }

/-- The loop of `read_dma` over a vector: the length in front of the element that ends behind the
logical size, the elements in front of it, and those from it on. -/
def walk (s : AppendChallengedFile) (pos : UInt64) :
    UInt64 → List Iovec → UInt64 × List Iovec × List Iovec
  | len, [] => (len, [], [])
  | len, v :: iov =>
    if pos + len + v.len ≤ s.logicalSize then
      let (len, front, rest) := walk s pos (len + v.len) iov
      (len, v :: front, rest)
    else (len, [], v :: iov)

/-- The vector that `read_dma` hands on. -/
def shorten (s : AppendChallengedFile) (pos : UInt64) (iov : List Iovec) : UInt64 × List Iovec :=
  let alignedLogicalSize := Seastar.alignUp s.logicalSize s.diskReadDmaAlignment
  match s.walk pos 0 iov with
  | (len, front, []) => (len, front)
  | (len, front, v :: _) =>
    let lastLen := pos + len + v.len - alignedLogicalSize
    if lastLen ≠ 0 then (len, front ++ [{ v with len := lastLen }]) else (len, front)

/-- `posix_file_impl::read_dma` into a vector: `make_read_iocb` with the array of the vector and the
number of its elements. -/
def posixReadDma (pos : UInt64) (iov : List Iovec) : Iocb :=
  makeReadIocb pos .iovecs (UInt64.ofNat iov.length)

/-- `read_dma` into a vector. -/
def readDmaIov (pos : UInt64) (iov : List Iovec) (s : AppendChallengedFile) : Option Read :=
  if s.logicalSize ≤ pos then none
  else
    let (len, iov) := s.shorten pos iov
    some { pos, len, io := posixReadDma pos iov }

/-! ## The two reads beside each other -/

/-- The vectored read submits as many bytes as the scalar one of its total length, and the file's
bytes go to the buffers in order. -/
def ReadsAgree (s : AppendChallengedFile) (pos : UInt64) (iov : List Iovec) : Prop :=
  match s.readDma pos 0 (UInt64.ofNat (Iovec.total iov)), s.readDmaIov pos iov with
  | none, none => True
  | some scalar, some vectored =>
    vectored.io.nbytes = scalar.io.nbytes ∧
      vectored.io.places = (Iovec.places iov).take scalar.io.nbytes.toNat
  | _, _ => False

/-- The vector that is handed on has the bytes of the scalar read. -/
def HandedOnAgrees (s : AppendChallengedFile) (pos : UInt64) (iov : List Iovec) : Prop :=
  ∀ scalar ∈ s.readDma pos 0 (UInt64.ofNat (Iovec.total iov)),
    Iovec.total (s.shorten pos iov).2 = scalar.io.nbytes.toNat

/-- No element ends behind the logical size, or the first one that does goes as far behind the end
of the read as it starts in front of it. -/
def CutInTheMiddle (s : AppendChallengedFile) (pos : UInt64) (iov : List Iovec) : Prop :=
  ∀ v ∈ (s.walk pos 0 iov).2.2.head?,
    v.len.toNat + 2 * (pos.toNat + (s.walk pos 0 iov).1.toNat) =
      2 * (Seastar.alignUp s.logicalSize s.diskReadDmaAlignment).toNat

/-- The alignment is a power of two in an `unsigned`, the size of the file an `off_t`, and the
position and the vector are within 64 bits. -/
structure Fits (s : AppendChallengedFile) (pos : UInt64) (iov : List Iovec) : Prop where
  alignment : ∃ k < 32, s.diskReadDmaAlignment.toNat = 2 ^ k
  size : s.logicalSize.toNat < 2 ^ 63
  range : pos.toNat + Iovec.total iov < 2 ^ 64
  count : iov.length < 2 ^ 64

variable {s : AppendChallengedFile} {pos len : UInt64} {iov : List Iovec}

theorem total_cons (v : Iovec) (iov : List Iovec) :
    Iovec.total (v :: iov) = v.len.toNat + Iovec.total iov := by
  rw [Iovec.total, List.map_cons, List.sum_cons]
  rfl

theorem total_append (iov iov' : List Iovec) :
    Iovec.total (iov ++ iov') = Iovec.total iov + Iovec.total iov' := by
  rw [Iovec.total, List.map_append, List.sum_append]
  rfl

/-- The aligned size is not below the size, and less than an alignment behind it. -/
theorem Fits.aligned (h : Fits s pos iov) :
    s.logicalSize.toNat ≤ (Seastar.alignUp s.logicalSize s.diskReadDmaAlignment).toNat ∧
      (Seastar.alignUp s.logicalSize s.diskReadDmaAlignment).toNat <
        s.logicalSize.toNat + 2 ^ 32 := by
  obtain ⟨k, hk, hpow⟩ := h.alignment
  have hpos : 0 < s.diskReadDmaAlignment.toNat := by
    rw [hpow]
    exact Nat.two_pow_pos k
  have hlt : s.diskReadDmaAlignment.toNat < 2 ^ 32 := by
    rw [hpow]
    exact Nat.pow_lt_pow_right (by decide) hk
  have hsize := h.size
  rw [toNat_alignUp ⟨k, by omega, hpow⟩ (by omega)]
  have hmod := Nat.div_add_mod (s.logicalSize.toNat + s.diskReadDmaAlignment.toNat - 1)
    s.diskReadDmaAlignment.toNat
  have hrest := Nat.mod_lt (s.logicalSize.toNat + s.diskReadDmaAlignment.toNat - 1) hpos
  rw [Nat.mul_comm] at hmod
  omega

/-- What the loop finds: the elements in front end at the logical size at the latest, and the next
one does not. -/
theorem walk_spec (hfit : pos.toNat + len.toNat + Iovec.total iov < 2 ^ 64)
    (hle : pos.toNat + len.toNat ≤ s.logicalSize.toNat) :
    (s.walk pos len iov).2.1 ++ (s.walk pos len iov).2.2 = iov ∧
      (s.walk pos len iov).1.toNat = len.toNat + Iovec.total (s.walk pos len iov).2.1 ∧
      pos.toNat + (s.walk pos len iov).1.toNat ≤ s.logicalSize.toNat ∧
      ∀ v ∈ (s.walk pos len iov).2.2.head?,
        s.logicalSize.toNat < pos.toNat + (s.walk pos len iov).1.toNat + v.len.toNat := by
  induction iov generalizing len with
  | nil => exact ⟨rfl, rfl, hle, fun v hv => nomatch hv⟩
  | cons v iov ih =>
    rw [total_cons] at hfit
    have hsum : (len + v.len).toNat = len.toNat + v.len.toNat := by
      rw [UInt64.toNat_add, Nat.mod_eq_of_lt (by omega)]
    have hend : (pos + len + v.len).toNat = pos.toNat + len.toNat + v.len.toNat := by
      rw [UInt64.toNat_add, UInt64.toNat_add, Nat.mod_eq_of_lt (a := pos.toNat + _) (by omega),
        Nat.mod_eq_of_lt (by omega)]
    rw [walk]
    by_cases hv : pos + len + v.len ≤ s.logicalSize
    · have hle' := UInt64.le_iff_toNat_le.mp hv
      rw [hend] at hle'
      have hfit' : pos.toNat + (len + v.len).toNat + Iovec.total iov < 2 ^ 64 := by omega
      obtain ⟨happend, hlen, hend', hnext⟩ := ih hfit' (by omega)
      rw [if_pos hv]
      refine ⟨congrArg (v :: ·) happend, ?_, hend', hnext⟩
      show (s.walk pos (len + v.len) iov).1.toNat =
        len.toNat + Iovec.total (v :: (s.walk pos (len + v.len) iov).2.1)
      rw [hlen, hsum, total_cons]
      omega
    · rw [if_neg hv]
      refine ⟨rfl, rfl, hle, fun w hw => ?_⟩
      obtain rfl := Option.some.inj hw
      rw [← hend]
      exact UInt64.lt_iff_toNat_lt.mp (UInt64.not_le.mp hv)

/-- The scalar read of the length of the vector ends with the vector or with the aligned size. -/
theorem Fits.readDma (h : Fits s pos iov) (hp : ¬s.logicalSize ≤ pos) :
    ∃ scalar, s.readDma pos 0 (UInt64.ofNat (Iovec.total iov)) = some scalar ∧
      scalar.io.nbytes.toNat = min (pos.toNat + Iovec.total iov)
        (Seastar.alignUp s.logicalSize s.diskReadDmaAlignment).toNat - pos.toNat := by
  have hlt := UInt64.lt_iff_toNat_lt.mp (UInt64.not_le.mp hp)
  have hrange := h.range
  have hle := h.aligned.1
  have htotal : (UInt64.ofNat (Iovec.total iov)).toNat = Iovec.total iov :=
    UInt64.toNat_ofNat_of_lt' (by simp only [UInt64.size]; omega)
  have hend : (pos + UInt64.ofNat (Iovec.total iov)).toNat = pos.toNat + Iovec.total iov := by
    rw [UInt64.toNat_add, htotal, Nat.mod_eq_of_lt (by omega)]
  refine ⟨_, if_neg hp, ?_⟩
  show (min _ _ - pos : UInt64).toNat = _
  have hmin : (min (pos + UInt64.ofNat (Iovec.total iov))
      (Seastar.alignUp s.logicalSize s.diskReadDmaAlignment)).toNat =
      min (pos.toNat + Iovec.total iov)
        (Seastar.alignUp s.logicalSize s.diskReadDmaAlignment).toNat := by
    rw [← hend, UInt64.toNat_min]
  rw [UInt64.toNat_sub_of_le, hmin]
  rw [UInt64.le_iff_toNat_le, hmin]
  omega

/-- Where the loop stops in the vector. -/
theorem Fits.walk (h : Fits s pos iov) (hp : ¬s.logicalSize ≤ pos) :
    ∃ len front rest, s.walk pos 0 iov = (len, front, rest) ∧ front ++ rest = iov ∧
      len.toNat = Iovec.total front ∧ pos.toNat + len.toNat ≤ s.logicalSize.toNat ∧
      ∀ v ∈ rest.head?, s.logicalSize.toNat < pos.toNat + len.toNat + v.len.toNat := by
  have hlt := UInt64.lt_iff_toNat_lt.mp (UInt64.not_le.mp hp)
  have hfit : pos.toNat + (0 : UInt64).toNat + Iovec.total iov < 2 ^ 64 := h.range
  have hle : pos.toNat + (0 : UInt64).toNat ≤ s.logicalSize.toNat := Nat.le_of_lt hlt
  obtain ⟨happend, hlen, hend, hnext⟩ := walk_spec hfit hle
  have hlen' : (s.walk pos 0 iov).1.toNat = Iovec.total (s.walk pos 0 iov).2.1 :=
    hlen.trans (Nat.zero_add _)
  exact ⟨_, _, _, rfl, happend, hlen', hend, hnext⟩

/-- A vector that ends at the logical size at the latest is handed on as it is. -/
theorem shorten_whole {len : UInt64} {front : List Iovec}
    (hwalk : s.walk pos 0 iov = (len, front, [])) : (s.shorten pos iov).2 = front := by
  rw [shorten, hwalk]

/-- A buffer is not the array of the vector. -/
theorem places_iovecs {n : Nat} (hn : 0 < n)
    (h : (List.range n).map Place.iovecs <+: Iovec.places iov) : False := by
  have hmem : Place.iovecs 0 ∈ Iovec.places iov := by
    apply h.subset
    exact List.mem_map_of_mem (List.mem_range.mpr hn)
  obtain ⟨v, -, hv⟩ := List.mem_flatMap.mp hmem
  obtain ⟨k, -, hk⟩ := List.mem_map.mp hv
  cases hk

/-- The two reads agree only when there is nothing to read or no vector: what is submitted is a read
into the array of the vector, of as many bytes as it has elements. -/
theorem readsAgree_iff (h : Fits s pos iov) :
    s.ReadsAgree pos iov ↔ s.logicalSize ≤ pos ∨ iov = [] := by
  by_cases hp : s.logicalSize ≤ pos
  · refine iff_of_true ?_ (Or.inl hp)
    simp only [ReadsAgree, AppendChallengedFile.readDma, readDmaIov, if_pos hp]
  · obtain ⟨scalar, hscalar, hbytes⟩ := h.readDma hp
    have hvectored : s.readDmaIov pos iov =
        some ⟨pos, (s.shorten pos iov).1, posixReadDma pos (s.shorten pos iov).2⟩ := if_neg hp
    rw [ReadsAgree, hscalar, hvectored]
    dsimp only
    obtain ⟨len, front, rest, hwalk, happend, hlen, hend, hnext⟩ := h.walk hp
    have hlt := UInt64.lt_iff_toNat_lt.mp (UInt64.not_le.mp hp)
    have haligned := h.aligned.1
    constructor
    · rintro ⟨hn, hplaces⟩
      refine Or.inr ?_
      have hzero : scalar.io.nbytes.toNat = 0 := by
        by_contra hne
        rw [← hn] at hne
        refine @places_iovecs iov _ (Nat.pos_of_ne_zero hne) ?_
        have htake := List.take_prefix scalar.io.nbytes.toNat (Iovec.places iov)
        rwa [← hplaces] at htake
      -- nothing is to be read, so nothing is cut off
      have htotal : Iovec.total iov = 0 := by omega
      rw [← happend, total_append] at htotal
      have hrest : rest = [] := by
        cases rest with
        | nil => rfl
        | cons v r =>
          have hv := hnext v rfl
          rw [total_cons] at htotal
          omega
      subst hrest
      rw [List.append_nil] at happend
      rw [shorten_whole hwalk, happend] at hn
      have hlength : (UInt64.ofNat iov.length).toNat = iov.length :=
        UInt64.toNat_ofNat_of_lt' h.count
      rw [← hn] at hzero
      exact List.eq_nil_of_length_eq_zero (hlength.symm.trans hzero)
    · rintro (hle | rfl)
      · exact absurd hle hp
      · have hzero : scalar.io.nbytes = 0 := by
          rw [← UInt64.toNat_inj, hbytes]
          show min (pos.toNat + 0) _ - pos.toNat = 0
          omega
        rw [hzero]
        exact ⟨rfl, rfl⟩

/-- The vector that is handed on has the bytes of the scalar read only when nothing is cut off or the
cut is in the middle: its last element gets the length of what is cut off. -/
theorem handedOnAgrees_iff (h : Fits s pos iov) :
    s.HandedOnAgrees pos iov ↔ s.logicalSize ≤ pos ∨ s.CutInTheMiddle pos iov := by
  by_cases hp : s.logicalSize ≤ pos
  · refine iff_of_true ?_ (Or.inl hp)
    intro scalar hscalar
    rw [AppendChallengedFile.readDma, if_pos hp] at hscalar
    cases hscalar
  · obtain ⟨scalar, hscalar, hbytes⟩ := h.readDma hp
    have hagree : s.HandedOnAgrees pos iov ↔
        Iovec.total (s.shorten pos iov).2 = scalar.io.nbytes.toNat := by
      simp only [HandedOnAgrees, hscalar, Option.mem_def, Option.some.injEq, forall_eq']
    rw [hagree, hbytes, or_iff_right hp, CutInTheMiddle]
    obtain ⟨len, front, rest, hwalk, happend, hlen, hend, hnext⟩ := h.walk hp
    have hlt := UInt64.lt_iff_toNat_lt.mp (UInt64.not_le.mp hp)
    obtain ⟨hle, hnear⟩ := h.aligned
    have hrange := h.range
    have hsize := h.size
    rw [← happend, total_append] at hrange ⊢
    rw [happend]
    cases rest with
    | nil =>
      rw [shorten_whole hwalk, hwalk]
      refine iff_of_true ?_ fun v hv => nomatch hv
      show Iovec.total front = min (pos.toNat + (Iovec.total front + 0)) _ - pos.toNat
      omega
    | cons v r =>
      have hv := hnext v rfl
      rw [total_cons] at hrange ⊢
      rw [shorten, hwalk]
      dsimp only
      generalize hal : Seastar.alignUp s.logicalSize s.diskReadDmaAlignment = aligned at *
      have hbound := aligned.toNat_lt
      have hlast : (pos + len + v.len - aligned).toNat =
          (2 ^ 64 - aligned.toNat + (pos.toNat + len.toNat + v.len.toNat)) % 2 ^ 64 := by
        rw [UInt64.toNat_sub, UInt64.toNat_add, UInt64.toNat_add]
        omega
      have hcond : (∀ w ∈ (v :: r).head?, w.len.toNat + 2 * (pos.toNat + len.toNat) =
          2 * aligned.toNat) ↔ v.len.toNat + 2 * (pos.toNat + len.toNat) = 2 * aligned.toNat := by
        simp
      rw [hcond]
      split
      · rw [total_append, total_cons]
        show Iovec.total front + ((pos + len + v.len - aligned).toNat + 0) = _ ↔ _
        rename_i hne
        rw [Ne, ← UInt64.toNat_inj, hlast] at hne
        rw [hlast]
        have hzero : (0 : UInt64).toNat = 0 := rfl
        omega
      · rename_i heq
        rw [Ne, not_not, ← UInt64.toNat_inj, hlast] at heq
        show Iovec.total front = _ ↔ _
        have hzero : (0 : UInt64).toNat = 0 := rfl
        omega

/-- For every file, position and vector: the reads agree exactly when there is nothing to read or no
vector. The vector itself is shortened to the bytes of the scalar read exactly when nothing is cut
off or the cut is in the middle. -/
theorem vectored_read_agrees_iff (h : Fits s pos iov) :
    (s.ReadsAgree pos iov ↔ s.logicalSize ≤ pos ∨ iov = []) ∧
      (s.HandedOnAgrees pos iov ↔ s.logicalSize ≤ pos ∨ s.CutInTheMiddle pos iov) :=
  ⟨readsAgree_iff h, handedOnAgrees_iff h⟩

/-- A file of a size, read in blocks of 256 bytes. -/
def ofSize (size : UInt64) : AppendChallengedFile where
  maxSizeChangingOps := 0
  fsyncIsExclusive := true
  sloppySize := false
  diskReadDmaAlignment := 256
  diskWriteDmaAlignment := 256
  committedSize := size
  logicalSize := size

/-- Two buffers of 1024 bytes at the start of a file of 1536 bytes. -/
theorem vectored_read_agrees_iff_cut :
    ((ofSize 1536).ReadsAgree 0 [⟨0, 1024⟩, ⟨1, 1024⟩] ↔
        (ofSize 1536).logicalSize ≤ 0 ∨ [(⟨0, 1024⟩ : Iovec), ⟨1, 1024⟩] = []) ∧
      ((ofSize 1536).HandedOnAgrees 0 [⟨0, 1024⟩, ⟨1, 1024⟩] ↔
        (ofSize 1536).logicalSize ≤ 0 ∨ (ofSize 1536).CutInTheMiddle 0 [⟨0, 1024⟩, ⟨1, 1024⟩]) :=
  vectored_read_agrees_iff ⟨⟨8, by decide, rfl⟩, by decide, by decide, by decide⟩

/-- One buffer of 1024 bytes at the start of a file of 8192 bytes: one byte is read, into the array
of the vector. -/
theorem vectored_read_disagrees :
    ((ofSize 8192).readDma 0 0 1024).map (fun r => r.io.nbytes) = some 1024 ∧
      ((ofSize 8192).readDmaIov 0 [⟨0, 1024⟩]).map (fun r => r.io) = some ⟨0, .iovecs, 1⟩ ∧
      ¬(ofSize 8192).ReadsAgree 0 [⟨0, 1024⟩] := by
  refine ⟨by decide, by decide, fun h => ?_⟩
  exact absurd h.1 (by decide)

/-- The second of two buffers of 1024 bytes is to get 512 bytes of a file of 1536 bytes, and 256 of
a file of 1280 bytes. -/
example :
    ((ofSize 1536).shorten 0 [⟨0, 1024⟩, ⟨1, 1024⟩]).2 = [⟨0, 1024⟩, ⟨1, 512⟩] ∧
      ((ofSize 1280).shorten 0 [⟨0, 1024⟩, ⟨1, 1024⟩]).2 = [⟨0, 1024⟩, ⟨1, 768⟩] := by decide

end AppendChallengedFile

end Seastar
