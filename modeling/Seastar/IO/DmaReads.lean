import Seastar.Core.Align
import Seastar.Lib.Fragments

/-!
`dma_read`, `dma_read_bulk` and `dma_read_exactly` of a `posix_file_impl`, which read from any
position. The range is widened to the alignment of the disk; the first read goes straight into the
buffer, and what it leaves out comes from further buffers. The kernel may cut any read short. An
`EINVAL` of a read behind the first one means the end of the file.
-/

namespace Seastar

/-- A DMA alignment. -/
structure DmaAlignment where
  value : UInt64
  pow : ∃ k < 32, value.toNat = 2 ^ k

/-- A file with the alignments of `file_impl`. Its size is an `off_t`. -/
structure PosixFile where
  content : List UInt8
  memoryDmaAlignment : DmaAlignment
  diskReadDmaAlignment : DmaAlignment
  size_lt : content.length < 2 ^ 63

namespace PosixFile

open Lib Lib.Fragments

def size (f : PosixFile) : Nat := f.content.length

/-- The bytes of the file between two positions. -/
def range (f : PosixFile) (start stop : Nat) : List UInt8 :=
  (f.content.drop start).take (stop - start)

/-- `_disk_read_dma_alignment`. -/
def disk (f : PosixFile) : UInt64 := f.diskReadDmaAlignment.value

/-! ## The kernel -/

/-- What the kernel answers to a read: how many bytes it has read, or `EINVAL`. -/
inductive Answer
  | bytes (n : Nat)
  | einval
  deriving DecidableEq, Repr

/-- The read is aligned and in front of the end of the file. -/
def Proper (f : PosixFile) (pos len : UInt64) : Prop :=
  f.disk.toNat ∣ pos.toNat ∧ f.disk.toNat ∣ len.toNat ∧ pos.toNat < f.size

instance (f : PosixFile) (pos len : UInt64) : Decidable (f.Proper pos len) :=
  inferInstanceAs (Decidable (_ ∧ _ ∧ _))

/-- The answers there are: a read goes up to the end of the file, or returns a multiple of the
alignment that is 0 for an empty buffer only; a read that is not aligned, or not in front of the end
of the file, returns 0 or `EINVAL`. -/
def Allowed (f : PosixFile) (pos len : UInt64) : Answer → Prop
  | .bytes n =>
    if f.Proper pos len then
      n ≤ len.toNat ∧ (pos.toNat + n = f.size ∨
        pos.toNat + n < f.size ∧ f.disk.toNat ∣ n ∧ (n = 0 → len = 0))
    else n = 0
  | .einval => ¬ f.Proper pos len

/-- A kernel: what it answers to the read of a number, at a position and of a length. -/
structure Kernel (f : PosixFile) where
  answer : Nat → UInt64 → UInt64 → Answer
  allowed : ∀ i pos len, f.Allowed pos len (answer i pos len)

/-- The errors of the kernel. -/
inductive Errno
  | einval
  deriving DecidableEq, Repr

/-- A read that was issued, with the number of bytes it has read. -/
structure Issued where
  pos : UInt64
  len : UInt64
  /-- the alignment of the buffer -/
  memoryAlignment : UInt64
  got : Nat
  deriving DecidableEq, Repr

variable {f : PosixFile}

/-- `read_dma`, behind the reads before. -/
def readDma (k : Kernel f) (pos len : UInt64) (reads : List Issued) :
    Except Errno (List UInt8) × List Issued :=
  match k.answer reads.length pos len with
  | .bytes n => (.ok (f.range pos.toNat (pos.toNat + n)),
      reads ++ [⟨pos, len, f.memoryDmaAlignment.value, n⟩])
  | .einval => (.error .einval, reads ++ [⟨pos, len, f.memoryDmaAlignment.value, 0⟩])

/-! ## The code -/

/-- `file::read_state`. -/
structure ReadState where
  eof : Bool := false
  buf : List UInt8
  pos : UInt64 := 0
  offset : UInt64
  toRead : UInt64
  front : UInt64
  deriving DecidableEq, Repr

namespace ReadState

/-- `read_state(..)`. -/
def create (offset front toRead diskAlignment : UInt64) : ReadState :=
  { buf := List.replicate (alignUp toRead diskAlignment).toNat 0, offset, toRead, front }

/-- `buf.size()`. -/
def bufSize (s : ReadState) : UInt64 := UInt64.ofNat s.buf.length

def done (s : ReadState) : Bool := s.eof || s.pos ≥ s.toRead

def curOffset (s : ReadState) : UInt64 := s.offset + s.pos

def leftSpace (s : ReadState) : UInt64 := s.bufSize - s.pos

def leftToRead (s : ReadState) : UInt64 := s.toRead - s.pos

def appendNewData (newData : List UInt8) (s : ReadState) : ReadState :=
  let toCopy := min s.leftSpace (UInt64.ofNat newData.length)
  { s with
    buf := overwrite s.buf s.pos.toNat (newData.take toCopy.toNat)
    pos := s.pos + toCopy }

def haveGoodBytes (s : ReadState) : Bool := s.pos > s.front

/-- `trim_buf_before_ret`, with the buffer. -/
def trimBufBeforeRet (s : ReadState) : List UInt8 :=
  if s.haveGoodBytes then (s.buf.take s.pos.toNat).drop s.front.toNat else []

end ReadState

/-- `read_maybe_eof`. -/
def readMaybeEof (k : Kernel f) (pos len : UInt64) (reads : List Issued) :
    List UInt8 × List Issued :=
  match readDma k pos (alignUp len f.disk) reads with
  | (.ok buf, reads) => (buf, reads)
  | (.error .einval, reads) => ([], reads)

/-- The loop of `dma_read_bulk`; `none` when it takes more rounds than it is given. -/
def fill (k : Kernel f) : Nat → ReadState → List Issued → Option (ReadState × List Issued)
  | 0, _, _ => none
  | fuel + 1, s, reads =>
    if s.done then some (s, reads)
    else
      let (buf1, reads) := readMaybeEof k s.curOffset s.leftToRead reads
      if buf1.length ≠ 0 then fill k fuel (s.appendNewData buf1) reads
      else fill k fuel { s with eof := true } reads

/-- What a read fails with: the error of the kernel, or `eof_error`. -/
inductive Failure
  | system (e : Errno)
  | eofError
  deriving DecidableEq, Repr

/-- `dma_read_bulk`, with the reads it issues. -/
def dmaReadBulk (k : Kernel f) (fuel : Nat) (offset rangeSize : UInt64) :
    Option (Except Failure (List UInt8) × List Issued) :=
  let front := offset &&& (f.disk - 1)
  let offset := offset - front
  let rangeSize := rangeSize + front
  let rstate := ReadState.create offset front rangeSize f.disk
  match readDma k offset rstate.bufSize [] with
  | (.error e, reads) => some (.error (.system e), reads)
  | (.ok data, reads) =>
    (fill k fuel
      { rstate with buf := overwrite rstate.buf 0 data, pos := UInt64.ofNat data.length }
      reads).map fun s => (.ok s.1.trimBufBeforeRet, s.2)

/-- `dma_read`. -/
def dmaRead (k : Kernel f) (fuel : Nat) (pos len : UInt64) :
    Option (Except Failure (List UInt8)) :=
  (dmaReadBulk k fuel pos len).map fun r => r.1.map fun buf =>
    if len.toNat < buf.length then buf.take len.toNat else buf

/-- `dma_read_exactly`. -/
def dmaReadExactly (k : Kernel f) (fuel : Nat) (pos len : UInt64) :
    Option (Except Failure (List UInt8)) :=
  (dmaRead k fuel pos len).map fun r => r.bind fun buf =>
    if buf.length < len.toNat then .error .eofError else .ok buf

/-! ## Positions and ranges -/

theorem disk_pow (f : PosixFile) : ∃ k < 64, f.disk.toNat = 2 ^ k := by
  obtain ⟨k, hk, hpow⟩ := f.diskReadDmaAlignment.pow
  exact ⟨k, Nat.lt_trans hk (by decide), hpow⟩

section Range

variable {a b c : Nat}

theorem length_range (h : b ≤ f.size) : (f.range a b).length = b - a := by
  rw [range, List.length_take, List.length_drop]
  exact Nat.min_eq_left (Nat.sub_le_sub_right h a)

theorem range_append (hab : a ≤ b) (hbc : b ≤ c) : f.range a b ++ f.range b c = f.range a c := by
  rw [range, range, range, show c - a = b - a + (c - b) by omega, List.take_add, List.drop_drop,
    show a + (b - a) = b by omega]

theorem take_range (a b n : Nat) : (f.range a b).take n = f.range a (min (a + n) b) := by
  rw [range, range, List.take_take]
  congr 1
  omega

theorem drop_range (a b n : Nat) : (f.range a b).drop n = f.range (a + n) b := by
  rw [range, range, List.drop_take, List.drop_drop]
  congr 1
  omega

theorem range_nil (h : b ≤ a ∨ f.size ≤ a) : f.range a b = [] := by
  rw [range]
  rcases h with h | h
  · rw [Nat.sub_eq_zero_of_le h, List.take_zero]
  · rw [List.drop_eq_nil_of_le h, List.take_nil]

/-- Behind the end of the file there is nothing. -/
theorem range_min (a b : Nat) : f.range a (min b f.size) = f.range a b := by
  have hlen : (f.content.drop a).length = f.size - a := List.length_drop
  rw [range, range]
  rcases Nat.le_total b f.size with h | h
  · rw [Nat.min_eq_left h]
  · rw [Nat.min_eq_right h, List.take_of_length_le (by rw [hlen]),
      List.take_of_length_le (by rw [hlen]; omega)]

end Range

/-- The bytes of the range in front of its aligned start. -/
def front (f : PosixFile) (pos : UInt64) : UInt64 := pos &&& (f.disk - 1)

/-- Where the first read starts. -/
def start (f : PosixFile) (pos : UInt64) : UInt64 := pos - f.front pos

/-- The size of the buffer. -/
def window (f : PosixFile) (pos len : UInt64) : UInt64 := alignUp (len + f.front pos) f.disk

theorem toNat_front (pos : UInt64) : (f.front pos).toNat = pos.toNat % f.disk.toNat :=
  toNat_and_sub_one pos f.disk_pow

theorem start_add_front (pos : UInt64) : (f.start pos).toNat + (f.front pos).toNat = pos.toNat := by
  have hle : (f.front pos).toNat ≤ pos.toNat := by
    rw [toNat_front]
    exact Nat.mod_le _ _
  rw [start, UInt64.toNat_sub_of_le _ _ (UInt64.le_iff_toNat_le.mpr hle)]
  omega

theorem dvd_start (pos : UInt64) : f.disk.toNat ∣ (f.start pos).toNat := by
  have hsum := f.start_add_front pos
  rw [toNat_front] at hsum
  exact ⟨pos.toNat / f.disk.toNat, by have := Nat.div_add_mod pos.toNat f.disk.toNat; omega⟩

theorem dvd_window (pos len : UInt64) : f.disk.toNat ∣ (f.window pos len).toNat :=
  dvd_alignUp _ f.disk_pow

/-! ## One read -/

/-- A read returns these many bytes. -/
structure Got (f : PosixFile) (pos len : UInt64) (n : Nat) : Prop where
  le_len : n ≤ len.toNat
  inside : n ≠ 0 → pos.toNat + n ≤ f.size
  aligned : f.disk.toNat ∣ n ∨ pos.toNat + n = f.size
  zero : n = 0 → ¬ f.Proper pos len ∨ len = 0

theorem Got.of_allowed {pos len : UInt64} {n : Nat} (h : f.Allowed pos len (.bytes n)) :
    Got f pos len n := by
  rw [Allowed] at h
  split at h
  · rename_i hproper
    obtain ⟨hle, hend | ⟨hlt, hdvd, hzero⟩⟩ := h
    · refine ⟨hle, fun _ => Nat.le_of_eq hend, Or.inr hend, fun hn => ?_⟩
      have := hproper.2.2
      omega
    · exact ⟨hle, fun _ => Nat.le_of_lt hlt, Or.inl hdvd, fun hn => Or.inr (hzero hn)⟩
  · rename_i hproper
    subst h
    exact ⟨Nat.zero_le _, fun h => absurd rfl h, Or.inl (Nat.dvd_zero _), fun _ => Or.inl hproper⟩

theorem Got.none {pos len : UInt64} (h : ¬ f.Proper pos len) : Got f pos len 0 :=
  ⟨Nat.zero_le _, fun h => absurd rfl h, Or.inl (Nat.dvd_zero _), fun _ => Or.inl h⟩

theorem Got.length {pos len : UInt64} {n : Nat} (h : Got f pos len n) :
    (f.range pos.toNat (pos.toNat + n)).length = n := by
  by_cases hn : n = 0
  · subst hn
    rw [range_nil (Or.inl (Nat.le_of_eq (Nat.add_zero _)))]
    rfl
  · rw [length_range (h.inside hn)]
    omega

/-- What `read_maybe_eof` reads. -/
theorem readMaybeEof_eq (k : Kernel f) (pos len : UInt64) (reads : List Issued) :
    ∃ n, Got f pos (alignUp len f.disk) n ∧
      readMaybeEof k pos len reads = (f.range pos.toNat (pos.toNat + n),
        reads ++ [⟨pos, alignUp len f.disk, f.memoryDmaAlignment.value, n⟩]) := by
  have hallowed := k.allowed reads.length pos (alignUp len f.disk)
  rw [readMaybeEof, readDma]
  cases ha : k.answer reads.length pos (alignUp len f.disk) with
  | bytes n =>
    rw [ha] at hallowed
    exact ⟨n, .of_allowed hallowed, rfl⟩
  | einval =>
    rw [ha] at hallowed
    refine ⟨0, .none hallowed, ?_⟩
    rw [range_nil (Or.inl (Nat.le_of_eq (Nat.add_zero _)))]

/-! ## Reads up to the end of the file -/

/-- The read is aligned, and so is its buffer. -/
def Issued.Aligned (f : PosixFile) (r : Issued) : Prop :=
  f.disk.toNat ∣ r.pos.toNat ∧ f.disk.toNat ∣ r.len.toNat ∧
    r.memoryAlignment = f.memoryDmaAlignment.value

/-- Every read is aligned that is issued before one has come to the end of the file. -/
def AlignedUntilEnd (f : PosixFile) : List Issued → Prop
  | [] => True
  | r :: rs => r.Aligned f ∧ (r.pos.toNat + r.got < f.size → AlignedUntilEnd f rs)

/-- None of the reads has come to the end of the file. -/
def NotEnded (f : PosixFile) (reads : List Issued) : Prop :=
  ∀ r ∈ reads, r.pos.toNat + r.got < f.size

theorem AlignedUntilEnd.snoc {reads : List Issued} {r : Issued} (h : AlignedUntilEnd f reads)
    (hr : NotEnded f reads → r.Aligned f) : AlignedUntilEnd f (reads ++ [r]) := by
  induction reads with
  | nil => exact ⟨hr fun _ hq => absurd hq List.not_mem_nil, fun _ => trivial⟩
  | cons q reads ih =>
    exact ⟨h.1, fun hq => ih (h.2 hq) fun hne => hr (List.forall_mem_cons.mpr ⟨hq, hne⟩)⟩

/-! ## The loop -/

/-- The buffer is filled up to `pos` with what the file has from `offset` on, the reads being issued. -/
structure Filling (f : PosixFile) (s : ReadState) (reads : List Issued) : Prop where
  offset_dvd : f.disk.toNat ∣ s.offset.toNat
  length_buf : s.buf.length = (alignUp s.toRead f.disk).toNat
  pos_le : s.pos.toNat ≤ s.buf.length
  inside : s.pos.toNat ≠ 0 → s.offset.toNat + s.pos.toNat ≤ f.size
  content : s.buf.take s.pos.toNat = f.range s.offset.toNat (s.offset.toNat + s.pos.toNat)
  aligned : f.disk.toNat ∣ s.pos.toNat ∨ s.offset.toNat + s.pos.toNat = f.size
  /-- the end of the file is seen, or the buffer is empty -/
  ended : s.eof = true → f.size ≤ s.offset.toNat + s.pos.toNat ∨ s.buf.length = 0
  issued : AlignedUntilEnd f reads
  not_ended : NotEnded f reads → f.disk.toNat ∣ s.pos.toNat

section Fill

variable {s : ReadState} {reads : List Issued} {n fuel : Nat} {k : Kernel f}

theorem toNat_curOffset (h : Filling f s reads) :
    s.curOffset.toNat = s.offset.toNat + s.pos.toNat := by
  have hlt := f.size_lt
  have hin := h.inside
  have hoff := s.offset.toNat_lt
  rw [ReadState.curOffset, UInt64.toNat_add]
  by_cases hpos : s.pos.toNat = 0
  · omega
  · have := hin hpos
    rw [size] at this
    omega

theorem toNat_bufSize (h : Filling f s reads) : s.bufSize.toNat = s.buf.length := by
  have hlt := (alignUp s.toRead f.disk).toNat_lt
  exact UInt64.toNat_ofNat_of_lt' (h.length_buf ▸ hlt)

/-- The number of bytes that are copied. -/
theorem toNat_toCopy (h : Filling f s reads) (hn : n ≤ f.size) :
    (min s.leftSpace (UInt64.ofNat n)).toNat = min (s.buf.length - s.pos.toNat) n := by
  have hsize := toNat_bufSize h
  have hspace : s.leftSpace.toNat = s.buf.length - s.pos.toNat := by
    rw [ReadState.leftSpace, UInt64.toNat_sub_of_le _ _
      (UInt64.le_iff_toNat_le.mpr (hsize.symm ▸ h.pos_le)), hsize]
  have hnat : (UInt64.ofNat n).toNat = n := by
    have := f.size_lt
    rw [size] at hn
    exact UInt64.toNat_ofNat_of_lt' (show n < 2 ^ 64 by omega)
  rw [UInt64.toNat_min, hspace, hnat]

/-- What is left is there to be read, and there is space for it, unless the buffer is empty. -/
theorem Filling.left (h : Filling f s reads) (hdone : s.done = false) :
    s.eof = false ∧ s.pos.toNat < s.toRead.toNat ∧
      s.leftToRead.toNat = s.toRead.toNat - s.pos.toNat ∧
      (s.pos.toNat < s.buf.length ∨ (alignUp s.leftToRead f.disk).toNat = 0) := by
  rw [ReadState.done, Bool.or_eq_false_iff, decide_eq_false_iff_not, ge_iff_le,
    UInt64.le_iff_toNat_le, Nat.not_le] at hdone
  obtain ⟨heof, hlt⟩ := hdone
  have hleft : s.leftToRead.toNat = s.toRead.toNat - s.pos.toNat :=
    UInt64.toNat_sub_of_le _ _ (UInt64.le_iff_toNat_le.mpr (Nat.le_of_lt hlt))
  refine ⟨heof, hlt, hleft, ?_⟩
  have hlen := h.length_buf
  have hle := h.pos_le
  rcases alignUp_cases s.toRead f.disk_pow with hzero | ⟨hge, -⟩
  · right
    have hpos : s.pos.toNat = 0 := by omega
    have hsame : s.leftToRead = s.toRead := UInt64.toNat_inj.mp (by omega)
    rw [hsame, hzero]
  · left
    omega

/-- The copy of what a read behind `pos` has returned, as far as there is space. -/
theorem Filling.copied (h : Filling f s reads) {m : Nat}
    (hin : s.offset.toNat + s.pos.toNat + n ≤ f.size)
    (hm : m = min (s.buf.length - s.pos.toNat) n) :
    ∃ t, s.appendNewData (f.range s.curOffset.toNat (s.curOffset.toNat + n)) = t ∧
      t.eof = s.eof ∧ t.offset = s.offset ∧ t.toRead = s.toRead ∧
      t.pos.toNat = s.pos.toNat + m ∧ t.buf.length = s.buf.length ∧
      t.buf.take t.pos.toNat = f.range s.offset.toNat (s.offset.toNat + t.pos.toNat) := by
  have hle := h.pos_le
  have hcur := toNat_curOffset h
  have hcopy := toNat_toCopy (n := n) h (by omega)
  have hlenRead : (f.range s.curOffset.toNat (s.curOffset.toNat + n)).length = n := by
    rw [length_range (by omega)]
    omega
  have hpos : (s.pos + min s.leftSpace (UInt64.ofNat n)).toNat = s.pos.toNat + m := by
    have hwindow := (alignUp s.toRead f.disk).toNat_lt
    have hlen := h.length_buf
    rw [UInt64.toNat_add, hcopy]
    omega
  have htaken : (f.range s.curOffset.toNat (s.curOffset.toNat + n)).take
      (min s.leftSpace (UInt64.ofNat n)).toNat =
      f.range (s.offset.toNat + s.pos.toNat) (s.offset.toNat + (s.pos.toNat + m)) := by
    rw [take_range, hcopy, hcur]
    congr 1
    omega
  have hlenTaken : (f.range (s.offset.toNat + s.pos.toNat)
      (s.offset.toNat + (s.pos.toNat + m))).length = m := by
    rw [length_range (by omega)]
    omega
  refine ⟨_, rfl, rfl, rfl, rfl, ?_, ?_, ?_⟩
  · rw [ReadState.appendNewData, hlenRead]
    exact hpos
  · rw [ReadState.appendNewData, hlenRead, htaken]
    refine length_overwrite ?_
    rw [hlenTaken]
    omega
  · rw [ReadState.appendNewData, hlenRead, htaken]
    show (overwrite _ _ _).take (s.pos + _).toNat = f.range _ (s.offset.toNat + (s.pos + _).toNat)
    rw [hpos, overwrite, List.append_assoc, ← List.append_assoc, h.content,
      range_append (by omega) (by omega), List.take_left']
    rw [length_range (by omega)]
    omega

/-- A read that returns something adds it to the buffer. -/
theorem Filling.append (h : Filling f s reads) (hdone : s.done = false)
    (hgot : Got f s.curOffset (alignUp s.leftToRead f.disk) n) (hn : n ≠ 0) :
    Filling f (s.appendNewData (f.range s.curOffset.toNat (s.curOffset.toNat + n)))
        (reads ++ [⟨s.curOffset, alignUp s.leftToRead f.disk, f.memoryDmaAlignment.value, n⟩]) ∧
      s.pos.toNat <
        (s.appendNewData (f.range s.curOffset.toNat (s.curOffset.toNat + n))).pos.toNat := by
  obtain ⟨heof, hlt, hleft, hroom⟩ := h.left hdone
  have hcur := toNat_curOffset h
  have hinside := hgot.inside hn
  have hroom : s.pos.toNat < s.buf.length := by
    rcases hroom with hroom | hzero
    · exact hroom
    · have := hgot.le_len
      omega
  have hdvd : f.disk.toNat ∣ s.pos.toNat := by
    refine h.aligned.resolve_right fun hend => ?_
    omega
  obtain ⟨t, ht, hteof, htoffset, htread, hpos, hlen, htake⟩ := h.copied (n := n) (by omega) rfl
  rw [ht]
  -- the copy ends at the end of the buffer, or where the read ends
  have hnext : t.pos.toNat = t.buf.length ∨ t.pos.toNat = s.pos.toNat + n := by omega
  have hlenBuf : t.buf.length = (alignUp t.toRead f.disk).toNat := by
    rw [hlen, htread, h.length_buf]
  have hdvdLen : f.disk.toNat ∣ t.buf.length := hlenBuf ▸ dvd_alignUp _ f.disk_pow
  refine ⟨⟨?_, hlenBuf, ?_, fun _ => ?_, ?_, ?_, fun he => ?_, ?_, fun hne => ?_⟩, ?_⟩
  · rw [htoffset]
    exact h.offset_dvd
  · omega
  · rw [htoffset]
    omega
  · rw [htoffset]
    exact htake
  · rw [htoffset]
    rcases hnext with hnext | hnext
    · rw [hnext]
      exact Or.inl hdvdLen
    · rw [hnext]
      rcases hgot.aligned with hdn | hend
      · exact Or.inl (Nat.dvd_add hdvd hdn)
      · right
        omega
  · rw [hteof, heof] at he
    cases he
  · refine h.issued.snoc fun _ => ⟨?_, dvd_alignUp _ f.disk_pow, rfl⟩
    rw [hcur]
    exact Nat.dvd_add h.offset_dvd hdvd
  · rcases hnext with hnext | hnext
    · rw [hnext]
      exact hdvdLen
    · rw [hnext]
      refine Nat.dvd_add hdvd (hgot.aligned.resolve_right fun hend => ?_)
      have := hne _ (List.mem_append_right _ (List.mem_singleton_self _))
      exact absurd hend (Nat.ne_of_lt this)
  · omega

/-- A read that returns nothing has come to the end of the file. -/
theorem Filling.end (h : Filling f s reads) (hdone : s.done = false)
    (hgot : Got f s.curOffset (alignUp s.leftToRead f.disk) 0) :
    Filling f { s with eof := true }
      (reads ++ [⟨s.curOffset, alignUp s.leftToRead f.disk, f.memoryDmaAlignment.value, 0⟩]) := by
  obtain ⟨heof, hlt, hleft, -⟩ := h.left hdone
  have hcur := toNat_curOffset h
  have hdvdCur : f.disk.toNat ∣ s.pos.toNat → f.disk.toNat ∣ s.curOffset.toNat := by
    intro hdvd
    rw [hcur]
    exact Nat.dvd_add h.offset_dvd hdvd
  refine ⟨h.offset_dvd, h.length_buf, h.pos_le, h.inside, h.content, h.aligned, fun _ => ?_, ?_,
    fun hne => h.not_ended fun r hr => hne r (List.mem_append_left _ hr)⟩
  · rcases hgot.zero rfl with hproper | hempty
    · left
      rcases h.aligned with hdvd | hend
      · by_contra hlt
        exact hproper ⟨hdvdCur hdvd, dvd_alignUp _ f.disk_pow, by rw [hcur]; exact Nat.lt_of_not_le hlt⟩
      · exact Nat.le_of_eq hend.symm
    · right
      have hzero : (alignUp s.leftToRead f.disk).toNat = 0 := congrArg UInt64.toNat hempty
      rw [alignUp_eq_zero f.disk_pow (by omega)] at hzero
      show s.buf.length = 0
      rw [h.length_buf]
      exact alignUp_wraps f.disk_pow (by omega)
  · exact h.issued.snoc fun hne => ⟨hdvdCur (h.not_ended hne), dvd_alignUp _ f.disk_pow, rfl⟩

/-- The rounds that are left. -/
def rounds (f : PosixFile) (s : ReadState) : Nat :=
  if s.eof then 1 else f.size - (s.offset.toNat + s.pos.toNat) + 2

theorem rounds_pos (f : PosixFile) (s : ReadState) : 0 < f.rounds s := by
  rw [rounds]
  split <;> omega

/-- The loop comes to an end, and keeps what is known of the buffer. -/
theorem Filling.fill (h : Filling f s reads) (hfuel : f.rounds s ≤ fuel) :
    ∃ s' reads', fill k fuel s reads = some (s', reads') ∧ Filling f s' reads' ∧ s'.done = true ∧
      s'.offset = s.offset ∧ s'.toRead = s.toRead ∧ s'.front = s.front := by
  induction fuel generalizing s reads with
  | zero =>
    have := f.rounds_pos s
    omega
  | succ fuel ih =>
    cases hdone : s.done with
    | true => exact ⟨s, reads, by rw [PosixFile.fill, if_pos hdone], h, hdone, rfl, rfl, rfl⟩
    | false =>
      obtain ⟨heof, -⟩ := h.left hdone
      obtain ⟨n, hgot, hread⟩ := readMaybeEof_eq k s.curOffset s.leftToRead reads
      simp only [rounds, heof, Bool.false_eq_true, if_false] at hfuel
      simp only [PosixFile.fill, hdone, Bool.false_eq_true, if_false, hread, hgot.length]
      by_cases hn : n = 0
      · subst hn
        simp only [ne_eq, not_true_eq_false, if_false]
        exact ih (h.end hdone hgot) (by simp only [rounds, if_true]; omega)
      · simp only [ne_eq, hn, not_false_eq_true, if_true]
        obtain ⟨hnext, hmore⟩ := h.append hdone hgot hn
        have hinside := hnext.inside (by omega)
        refine ih hnext ?_
        have heof' : (s.appendNewData (f.range s.curOffset.toNat (s.curOffset.toNat + n))).eof = false :=
          heof
        have hoff : (s.appendNewData (f.range s.curOffset.toNat (s.curOffset.toNat + n))).offset =
          s.offset := rfl
        rw [hoff] at hinside
        simp only [rounds, heof', hoff, Bool.false_eq_true, if_false]
        omega

/-- When the loop is done the buffer is full, or the file is at its end. -/
theorem Filling.full (h : Filling f s reads) (hdone : s.done = true) :
    f.size ≤ s.offset.toNat + s.pos.toNat ∨ s.pos.toNat = s.buf.length := by
  have hle := h.pos_le
  have hlen := h.length_buf
  rw [ReadState.done, Bool.or_eq_true, decide_eq_true_iff, ge_iff_le, UInt64.le_iff_toNat_le] at hdone
  rcases hdone with heof | hread
  · rcases h.ended heof with hend | hzero
    · exact Or.inl hend
    · right
      omega
  · rcases h.aligned with hdvd | hend
    · right
      rcases alignUp_cases s.toRead f.disk_pow with hzero | ⟨-, hlt⟩
      · omega
      · obtain ⟨a, ha⟩ := hdvd
        obtain ⟨b, hb⟩ := dvd_alignUp s.toRead f.disk_pow
        have hba : b < a + 1 := by
          refine Nat.lt_of_mul_lt_mul_left (a := f.disk.toNat) ?_
          rw [Nat.mul_add, Nat.mul_one]
          omega
        have := Nat.mul_le_mul_left f.disk.toNat (Nat.le_of_lt_succ hba)
        omega
    · exact Or.inl (Nat.le_of_eq hend.symm)

/-- What is returned is the range behind the front. -/
theorem Filling.trimmed (h : Filling f s reads) (hdone : s.done = true) :
    s.trimBufBeforeRet =
      f.range (s.offset.toNat + s.front.toNat) (s.offset.toNat + s.buf.length) := by
  have hle := h.pos_le
  have hfull := h.full hdone
  have hgood : s.haveGoodBytes = true ↔ s.front.toNat < s.pos.toNat := by
    rw [ReadState.haveGoodBytes, decide_eq_true_iff, gt_iff_lt, UInt64.lt_iff_toNat_lt]
  rw [ReadState.trimBufBeforeRet]
  split
  · rw [h.content, drop_range]
    rcases hfull with hend | hpos
    · rw [← range_min, ← range_min _ (s.offset.toNat + s.buf.length)]
      congr 1
      omega
    · rw [hpos]
  · rename_i hbad
    rw [hgood, Nat.not_lt] at hbad
    rw [range_nil]
    omega

end Fill

/-! ## The three reads -/

variable {k : Kernel f} {pos len : UInt64} {fuel n : Nat}

/-- The state behind a first read of `n` bytes. -/
def firstState (f : PosixFile) (pos len : UInt64) (n : Nat) : ReadState :=
  { buf := overwrite (List.replicate (f.window pos len).toNat 0) 0
      (f.range (f.start pos).toNat ((f.start pos).toNat + n))
    pos := UInt64.ofNat n, offset := f.start pos, toRead := len + f.front pos, front := f.front pos }

/-- The first read itself. -/
def firstIssued (f : PosixFile) (pos len : UInt64) (n : Nat) : Issued :=
  ⟨f.start pos, f.window pos len, f.memoryDmaAlignment.value, n⟩

/-- The first read fills the front of the buffer. -/
theorem Filling.first (h : Got f (f.start pos) (f.window pos len) n) :
    Filling f (f.firstState pos len n) [f.firstIssued pos len n] := by
  have hpos : (f.firstState pos len n).pos.toNat = n := by
    have := (f.window pos len).toNat_lt
    exact UInt64.toNat_ofNat_of_lt' (Nat.lt_of_le_of_lt h.le_len this)
  have hlen := h.length
  have hbuf : (f.firstState pos len n).buf.length = (f.window pos len).toNat := by
    rw [firstState, length_overwrite, List.length_replicate]
    rw [hlen, List.length_replicate, Nat.zero_add]
    exact h.le_len
  refine ⟨dvd_start pos, hbuf, ?_, ?_, ?_, ?_, fun he => Bool.noConfusion he,
    ⟨⟨dvd_start pos, dvd_window pos len, rfl⟩, fun _ => trivial⟩, fun hne => ?_⟩
  · rw [hpos, hbuf]
    exact h.le_len
  · rw [hpos]
    exact h.inside
  · rw [hpos, firstState, overwrite, List.take_zero, List.nil_append, List.take_left' hlen]
  · rw [hpos]
    exact h.aligned
  · rw [hpos]
    exact h.aligned.resolve_right (Nat.ne_of_lt (hne _ (List.mem_singleton_self _)))

/-- A first read that returns goes on with the loop. -/
theorem dmaReadBulk_bytes (h : k.answer 0 (f.start pos) (f.window pos len) = .bytes n)
    (hlen : (f.range (f.start pos).toNat ((f.start pos).toNat + n)).length = n) :
    dmaReadBulk k fuel pos len =
      (fill k fuel (f.firstState pos len n) [f.firstIssued pos len n]).map
        fun s => (.ok s.1.trimBufBeforeRet, s.2) := by
  have hbuf : (ReadState.create (f.start pos) (f.front pos) (len + f.front pos) f.disk).bufSize =
      f.window pos len := by
    rw [ReadState.bufSize, ReadState.create, List.length_replicate, UInt64.ofNat_toNat]
    rfl
  have hread : readDma k (f.start pos)
      (ReadState.create (f.start pos) (f.front pos) (len + f.front pos) f.disk).bufSize [] =
      (.ok (f.range (f.start pos).toNat ((f.start pos).toNat + n)), [f.firstIssued pos len n]) := by
    rw [hbuf, readDma]
    simp only [List.length_nil, h, List.nil_append]
    rfl
  simp only [start, front] at hread hlen
  simp only [dmaReadBulk, hread, hlen]
  rfl

/-- ... and one that fails is the end. -/
theorem dmaReadBulk_einval (h : k.answer 0 (f.start pos) (f.window pos len) = .einval) :
    ∃ reads, dmaReadBulk k fuel pos len = some (.error (.system .einval), reads) := by
  have hbuf : (ReadState.create (f.start pos) (f.front pos) (len + f.front pos) f.disk).bufSize =
      f.window pos len := by
    rw [ReadState.bufSize, ReadState.create, List.length_replicate, UInt64.ofNat_toNat]
    rfl
  have hread : readDma k (f.start pos)
      (ReadState.create (f.start pos) (f.front pos) (len + f.front pos) f.disk).bufSize [] =
      (.error .einval, [f.firstIssued pos len 0]) := by
    rw [hbuf, readDma]
    simp only [List.length_nil, h, List.nil_append]
    rfl
  simp only [start, front] at hread
  exact ⟨[f.firstIssued pos len 0], by simp only [dmaReadBulk, hread]⟩

/-- Unless the kernel answers the first read with an error, the bulk is what the file has up to the
end of the buffer. -/
theorem dmaReadBulk_eq (hfirst : k.answer 0 (f.start pos) (f.window pos len) ≠ .einval)
    (hfuel : f.size + 2 ≤ fuel) :
    ∃ reads, dmaReadBulk k fuel pos len =
        some (.ok (f.range pos.toNat ((f.start pos).toNat + (f.window pos len).toNat)), reads) ∧
      AlignedUntilEnd f reads := by
  have hallowed := k.allowed 0 (f.start pos) (f.window pos len)
  cases ha : k.answer 0 (f.start pos) (f.window pos len) with
  | einval => exact absurd ha hfirst
  | bytes n =>
    rw [ha] at hallowed
    have hgot := Got.of_allowed hallowed
    have hrounds : f.rounds (f.firstState pos len n) ≤ fuel := by
      rw [rounds]
      split <;> omega
    obtain ⟨s, reads, hfill, hfilling, hdone, hoff, hread, hfront⟩ :=
      (Filling.first hgot).fill (k := k) hrounds
    have htrim := hfilling.trimmed hdone
    have hlen := hfilling.length_buf
    rw [hlen, hoff, hread, hfront] at htrim
    replace htrim : s.trimBufBeforeRet = f.range ((f.start pos).toNat + (f.front pos).toNat)
      ((f.start pos).toNat + (f.window pos len).toNat) := htrim
    rw [start_add_front] at htrim
    exact ⟨reads, by rw [dmaReadBulk_bytes ha hgot.length, hfill, Option.map_some, htrim],
      hfilling.issued⟩

theorem dmaRead_eq (hfirst : k.answer 0 (f.start pos) (f.window pos len) ≠ .einval)
    (hfuel : f.size + 2 ≤ fuel) :
    dmaRead k fuel pos len = some (.ok (f.range pos.toNat
      (min (pos.toNat + len.toNat) ((f.start pos).toNat + (f.window pos len).toNat)))) := by
  obtain ⟨reads, hbulk, -⟩ := dmaReadBulk_eq hfirst hfuel
  rw [dmaRead, hbulk]
  simp only [Option.map_some, Except.map]
  rw [← take_range]
  split
  · rfl
  · rename_i hle
    rw [List.take_of_length_le (Nat.le_of_not_lt hle)]

theorem dmaRead_einval (h : k.answer 0 (f.start pos) (f.window pos len) = .einval) :
    dmaRead k fuel pos len = some (.error (.system .einval)) := by
  obtain ⟨reads, hbulk⟩ : ∃ reads, dmaReadBulk k fuel pos len = some (.error (.system .einval), reads) :=
    dmaReadBulk_einval h
  rw [dmaRead, hbulk]
  rfl

/-- The three reads return what the file has in the range, and nothing is read unaligned before the
end of the file. -/
structure ReadsRange (k : Kernel f) (pos len : UInt64) : Prop where
  read : ∀ fuel ≥ f.size + 2, dmaRead k fuel pos len =
    some (.ok (f.range pos.toNat (min (pos.toNat + len.toNat) f.size)))
  bulk : ∀ fuel ≥ f.size + 2, ∃ stop reads,
    dmaReadBulk k fuel pos len = some (.ok (f.range pos.toNat stop), reads) ∧
      min (pos.toNat + len.toNat) f.size ≤ stop ∧ stop ≤ f.size ∧ AlignedUntilEnd f reads
  exactly : ∀ fuel ≥ f.size + 2, ∃ r, dmaReadExactly k fuel pos len = some r ∧
    ((∃ e, r = .error e) ↔ f.size - pos.toNat < len.toNat)

/-- The kernel does not answer the first read with an error, and the buffer reaches to the end of the
range, as far as the file goes. -/
def Reachable (k : Kernel f) (pos len : UInt64) : Prop :=
  k.answer 0 (f.start pos) (f.window pos len) ≠ .einval ∧
    min (pos.toNat + len.toNat) f.size ≤
      max pos.toNat ((f.start pos).toNat + (f.window pos len).toNat)

/-- The reads return the range, whatever the file, the position, the length, the alignments and the
short reads of the kernel are, if and only if the kernel does not answer the first read with an
error, and the size of the buffer does not wrap around below the end of the range. -/
theorem readsRange_iff (f : PosixFile) (k : Kernel f) (pos len : UInt64) :
    ReadsRange k pos len ↔ Reachable k pos len := by
  constructor
  · intro h
    have hread := h.read (f.size + 2) (Nat.le_refl _)
    have hfirst : k.answer 0 (f.start pos) (f.window pos len) ≠ .einval := by
      intro hinval
      rw [dmaRead_einval hinval] at hread
      cases hread
    refine ⟨hfirst, ?_⟩
    rw [dmaRead_eq hfirst (Nat.le_refl _), ← range_min] at hread
    have hlen := congrArg List.length (Except.ok.inj (Option.some.inj hread))
    rw [length_range (Nat.min_le_right _ _), length_range (Nat.min_le_right _ _)] at hlen
    omega
  · rintro ⟨hfirst, hreach⟩
    -- a buffer that ends in front of the range is one for an empty range
    have hempty : (f.start pos).toNat + (f.window pos len).toNat <
        min (pos.toNat + len.toNat) f.size → min (pos.toNat + len.toNat) f.size ≤ pos.toNat := by
      omega
    have hread : ∀ fuel ≥ f.size + 2, dmaRead k fuel pos len =
        some (.ok (f.range pos.toNat (min (pos.toNat + len.toNat) f.size))) := by
      intro fuel hfuel
      rw [dmaRead_eq hfirst hfuel, ← range_min]
      rcases Nat.lt_or_ge ((f.start pos).toNat + (f.window pos len).toNat)
        (min (pos.toNat + len.toNat) f.size) with hlt | hge
      · have := hempty hlt
        rw [range_nil (by omega), range_nil (by omega)]
      · congr 3
        omega
    refine ⟨hread, fun fuel hfuel => ?_, fun fuel hfuel => ?_⟩
    · obtain ⟨reads, hbulk, haligned⟩ := dmaReadBulk_eq hfirst hfuel
      rcases Nat.lt_or_ge ((f.start pos).toNat + (f.window pos len).toNat)
        (min (pos.toNat + len.toNat) f.size) with hlt | hge
      · have := hempty hlt
        rw [range_nil (by omega), ← range_nil (f := f) (b := min (pos.toNat + len.toNat) f.size)
          (Or.inl this)] at hbulk
        exact ⟨_, reads, hbulk, Nat.le_refl _, Nat.min_le_right _ _, haligned⟩
      · rw [← range_min] at hbulk
        exact ⟨_, reads, hbulk, by omega, Nat.min_le_right _ _, haligned⟩
    · refine ⟨_, by rw [dmaReadExactly, hread fuel hfuel]; rfl, ?_⟩
      have hlen := length_range (f := f) (a := pos.toNat) (Nat.min_le_right (pos.toNat + len.toNat) f.size)
      simp only [Except.bind, hlen]
      constructor
      · rintro ⟨e, he⟩
        split at he
        · omega
        · cases he
      · intro hfew
        exact ⟨.eofError, if_pos (by omega)⟩

/-- A kernel that reads all there is, and answers `EINVAL` to every other read. -/
def Kernel.full (f : PosixFile) : Kernel f where
  answer _ pos len :=
    if f.Proper pos len then .bytes (min len.toNat (f.size - pos.toNat)) else .einval
  allowed _ pos len := by
    by_cases h : f.Proper pos len
    · rw [if_pos h, Allowed, if_pos h]
      obtain ⟨-, hlen, hpos⟩ := h
      refine ⟨Nat.min_le_left _ _, ?_⟩
      rcases Nat.lt_or_ge (pos.toNat + len.toNat) f.size with hlt | hge
      · rw [Nat.min_eq_left (by omega)]
        exact Or.inr ⟨hlt, hlen, fun h0 => UInt64.toNat_inj.mp h0⟩
      · left
        omega
    · rw [if_neg h]
      exact h

/-- Three bytes, on a disk of blocks of two. -/
def threeBytes : PosixFile where
  content := [1, 2, 3]
  memoryDmaAlignment := ⟨2, 1, by decide, rfl⟩
  diskReadDmaAlignment := ⟨2, 1, by decide, rfl⟩
  size_lt := by decide

example : dmaRead (.full threeBytes) 5 1 1 = some (.ok [2]) := by decide +kernel

/-- Behind the end of the file the error of the first read is passed on, and with a length of
2^64 - 1 the buffer is empty. -/
theorem dmaRead_misses :
    ¬ ReadsRange (.full threeBytes) 4 1 ∧ ¬ ReadsRange (.full threeBytes) 0 (0 - 1) := by
  have hpast : dmaRead (.full threeBytes) 5 4 1 = some (.error (.system .einval)) := by
    decide +kernel
  have hwraps : dmaRead (.full threeBytes) 5 0 (0 - 1) = some (.ok []) := by decide +kernel
  constructor
  · intro h
    have hread := h.read 5 (Nat.le_refl _)
    rw [hpast] at hread
    cases hread
  · intro h
    have hread := h.read 5 (Nat.le_refl _)
    rw [hwraps] at hread
    exact absurd hread (by decide +kernel)

end PosixFile

end Seastar
