import Seastar.Core.Align
import Seastar.Core.Fault
import Seastar.Lib.Run

/-!
`file_data_source_impl` of `core/fstream.cc`. The reads that were issued wait in a
queue with the ranges they were asked for; these are contiguous, and the buffer of
a range is what the file has of it. The reads are widened to the alignment of the
file and trimmed when they end. The sizes of the buffers and of the queue may
change as the stream is used; they have no part in what is read.
-/

namespace Seastar

open Lib

variable {α : Type}

/-- `file_input_stream_history`, and its `window`. -/
structure FileDataSource.Window where
  totalRead : UInt64 := 0
  unusedRead : UInt64 := 0
  deriving DecidableEq, Repr

structure FileDataSource.History where
  currentWindow : FileDataSource.Window := {}
  previousWindow : FileDataSource.Window := {}
  readAhead : UInt32 := 1
  deriving DecidableEq, Repr

/-- `file_input_stream_options`. -/
structure FileDataSource.Options where
  bufferSize : UInt64 := 8192
  readAhead : UInt32 := 0
  dynamicAdjustments : Option FileDataSource.History := none
  deriving DecidableEq, Repr

/-- The current sizes, with the options they are derived from. -/
structure FileDataSource.Sizes where
  options : FileDataSource.Options
  currentReadAhead : UInt32
  currentBufferSize : UInt64
  inSlowStart : Bool := false
  deriving DecidableEq, Repr

namespace FileDataSource

namespace Sizes

/-- `minimal_buffer_size`. -/
def minimalBufferSize (s : Sizes) : UInt64 :=
  min (max (s.options.bufferSize / 4) 8192) s.options.bufferSize

/-- `try_increase_read_ahead`. -/
def tryIncreaseReadAhead (s : Sizes) : Sizes :=
  if s.currentReadAhead < s.options.readAhead && !s.inSlowStart then
    let readAhead := s.currentReadAhead + 1
    { s with
      currentReadAhead := readAhead
      options.dynamicAdjustments := s.options.dynamicAdjustments.map fun h =>
        { h with readAhead := max h.readAhead readAhead } }
  else s

/-- `update_history`. -/
def updateHistory (unused total : UInt64) (h : History) : History :=
  let window : Window :=
    { totalRead := h.currentWindow.totalRead + total
      unusedRead := h.currentWindow.unusedRead + unused }
  if window.totalRead ≥ 4 * 1024 * 1024 then
    { h with
      previousWindow := window
      currentWindow := {} }
  else { h with currentWindow := window }

/-- `below_target`; the ratio of 25 to 100 is reduced. -/
def belowTarget (unused total : UInt64) : Bool := unused * 4 < total * 1

/-- `update_history_consumed`; the new size is an `unsigned`. -/
def updateHistoryConsumed (bytes : UInt64) (s : Sizes) : Sizes :=
  match s.options.dynamicAdjustments with
  | none => s
  | some h =>
    let h := updateHistory 0 bytes h
    let s := { s with options.dynamicAdjustments := some h }
    if !s.inSlowStart then s
    else
      let newSize := (min (s.currentBufferSize * 2) s.options.bufferSize).toUInt32.toUInt64
      let total := h.currentWindow.totalRead + h.previousWindow.totalRead + newSize
      let unused := h.currentWindow.unusedRead + h.previousWindow.unusedRead + newSize
      if belowTarget unused total then
        { s with
          currentBufferSize := newSize
          inSlowStart := newSize < s.options.bufferSize }
      else s

/-- `set_new_buffer_size`. -/
def setNewBufferSize (afterSkip : Bool) (s : Sizes) : Sizes :=
  match s.options.dynamicAdjustments with
  | none => s
  | some h =>
    let total := (h.currentWindow.totalRead + h.previousWindow.totalRead).toInt64
    let unused := (h.currentWindow.unusedRead + h.previousWindow.unusedRead).toInt64
    if afterSkip && belowTarget unused.toUInt64 total.toUInt64 then s
    else
      let newTarget := (1 * total - 4 * unused) / (4 - 1)
      let minimal := s.minimalBufferSize.toInt64
      let newSize := (if newTarget < minimal then minimal else newTarget).toUInt64
      let newSize := max (1 <<< newSize.log2) s.minimalBufferSize
      if newSize ≥ s.currentBufferSize then s
      else
        { s with
          inSlowStart := true
          currentReadAhead := min s.currentReadAhead 1
          currentBufferSize := newSize }

/-- `update_history_unused`. -/
def updateHistoryUnused (bytes : UInt64) (s : Sizes) : Sizes :=
  match s.options.dynamicAdjustments with
  | none => s
  | some h =>
    { s with options.dynamicAdjustments := some (updateHistory bytes bytes h) }.setNewBufferSize true

/-- The sizes of a new stream. -/
def init (options : Options) : Sizes :=
  setNewBufferSize false
    { options
      -- `get_initial_read_ahead`
      currentReadAhead :=
        match options.dynamicAdjustments with
        | some h => min h.readAhead options.readAhead
        | none => if options.readAhead ≠ 0 then 1 else 0
      currentBufferSize := options.bufferSize }

end Sizes

/-- A file, which does not change as it is read. -/
structure File (α : Type) where
  content : List α
  size_lt : content.length < 2 ^ 64
  diskReadDmaAlignment : UInt64
  aligned : ∃ k < 64, diskReadDmaAlignment.toNat = 2 ^ k
  deriving DecidableEq

/-- The bytes from one position to another, as far as the file has them. -/
def File.slice (f : File α) (p q : Nat) : List α := (f.content.drop p).take (q - p)

/-- `dma_read_bulk`: the range from an aligned address, up to the next aligned one or the end of the
file. -/
def File.dmaReadBulk (f : File α) (start len : UInt64) : List α :=
  let align := f.diskReadDmaAlignment.toNat
  f.slice start.toNat ((start.toNat + len.toNat + align - 1) / align * align)

/-- `issued_read`, with the buffer its future has in the end. -/
structure IssuedRead (α : Type) where
  pos : UInt64
  size : UInt64
  ready : List α
  deriving DecidableEq, Repr

/-- What the caller has seen: a buffer, or bytes skipped. -/
inductive Event (α : Type)
  | got (buf : List α)
  | skipped (n : Nat)
  deriving DecidableEq, Repr

end FileDataSource

/-- `class file_data_source_impl`. -/
structure FileDataSource (α : Type) where
  file : FileDataSource.File α
  pos : UInt64
  remain : UInt64
  readBuffers : List (FileDataSource.IssuedRead α) := []
  sizes : FileDataSource.Sizes
  /-- history: what the caller has seen -/
  log : List (FileDataSource.Event α) := []
  deriving DecidableEq

namespace FileDataSource

/-- The constructor. -/
def init (file : File α) (offset len : UInt64) (options : Options) : FileDataSource α :=
  { file
    pos := offset
    remain := min (0xffffffffffffffff - offset) len
    sizes := Sizes.init options }

/-- `trim_front` of a buffer. -/
def trimFront (n : UInt64) (buf : List α) : Except Fault (List α) :=
  if n.toNat ≤ buf.length then .ok (buf.drop n.toNat) else .error .trimTooLong

/-- What the end of a read makes of the bytes that were read. -/
def trimmed (start pos remain : UInt64) (tmp : List α) : Except Fault (List α) :=
  let realEnd := start + .ofNat tmp.length
  if realEnd ≤ pos then .ok []
  else
    let tmp := if realEnd > pos + remain then tmp.take (pos + remain - start).toNat else tmp
    if start < pos then trimFront (pos - start) tmp else .ok tmp

/-- A round of the loop of `issue_read_aheads`, which issues a read. -/
def issueRead (s : FileDataSource α) : Except Fault (FileDataSource α) := do
  let align := s.file.diskReadDmaAlignment
  let start := alignDown s.pos align
  let «end» := min (alignUp (start + s.sizes.currentBufferSize) align) (s.pos + s.remain)
  let len := «end» - start
  let actualSize := min («end» - s.pos) s.remain
  let ready ← trimmed start s.pos s.remain (s.file.dmaReadBulk start len)
  .ok { s with
    readBuffers := s.readBuffers ++ [⟨s.pos, actualSize, ready⟩]
    remain := s.remain - («end» - s.pos)
    pos := «end» }

/-- The loop of `issue_read_aheads`, for as many rounds as buffers are missing. -/
def issueReads (additional : Nat) : Nat → FileDataSource α → Except Fault (FileDataSource α)
  | 0, s => .ok s
  | k + 1, s =>
    if s.remain = 0 then
      if s.readBuffers.length ≥ additional then .ok s
      else issueReads additional k { s with readBuffers := s.readBuffers ++ [⟨s.pos, 0, []⟩] }
    else do
      let s ← s.issueRead
      issueReads additional k s

/-- The number of buffers `issue_read_aheads` is to have. -/
def readAhead (additional : UInt32) (s : FileDataSource α) : Nat :=
  (s.sizes.currentReadAhead + additional).toNat

/-- `issue_read_aheads`. -/
def issueReadAheads (additional : UInt32) (s : FileDataSource α) :
    Except Fault (FileDataSource α) :=
  issueReads additional.toNat (s.readAhead additional - s.readBuffers.length) s

/-- `get` up to its reads; whether the read at the front has ended. -/
def waitFront (available : Bool) (s : FileDataSource α) : FileDataSource α :=
  if !s.readBuffers.isEmpty && !available then
    { s with sizes := s.sizes.tryIncreaseReadAhead }
  else s

/-- `get`. -/
def get (available : Bool) (s : FileDataSource α) : Except Fault (List α × FileDataSource α) := do
  let s ← (s.waitFront available).issueReadAheads 1
  match s.readBuffers with
  | [] => .error .emptyQueue
  | ret :: readBuffers =>
    .ok (ret.ready, { s with
      readBuffers
      sizes := s.sizes.updateHistoryConsumed ret.size })

/-- The loop of `skip` over the queue: the bytes left to skip, the queue, and the bytes dropped. -/
def skipBuffers : UInt64 → List (IssuedRead α) → UInt64 →
    Except Fault (UInt64 × List (IssuedRead α) × UInt64)
  | n, [], dropped => .ok (n, [], dropped)
  | n, front :: readBuffers, dropped =>
    if n = 0 then .ok (0, front :: readBuffers, dropped)
    else if n < front.size then do
      let ready ← trimFront n front.ready
      .ok (0, ⟨front.pos + n, front.size - n, ready⟩ :: readBuffers, dropped)
    else skipBuffers (n - front.size) readBuffers (dropped + front.size)

/-- `skip`. -/
def skip (n : UInt64) (s : FileDataSource α) : Except Fault (FileDataSource α) := do
  let (n, readBuffers, dropped) ← skipBuffers n s.readBuffers 0
  if n ≤ s.remain then
    .ok { s with
      readBuffers
      pos := s.pos + n
      remain := s.remain - n
      sizes := s.sizes.updateHistoryUnused dropped }
  else .error .assertFailed

/-- What can happen. -/
inductive Action
  /-- `get`, with whether the read at the front has ended -/
  | get (available : Bool)
  | skip (n : UInt64)
  /-- another stream changes the history it has in common with this one -/
  | adjust (h : History)
  deriving DecidableEq, Repr

/-- One action, with the history of what the caller has seen. -/
def step (s : FileDataSource α) : Action → Except Fault (FileDataSource α)
  | .get available => do
    let (buf, s) ← s.get available
    .ok { s with log := s.log ++ [.got buf] }
  | .skip n => do
    let s ← s.skip n
    .ok { s with log := s.log ++ [.skipped n.toNat] }
  | .adjust h =>
    .ok { s with sizes.options.dynamicAdjustments :=
      s.sizes.options.dynamicAdjustments.map fun _ => h }

/-- The source after the actions, oldest first. -/
def run : FileDataSource α → List Action → Except Fault (FileDataSource α) := Run.run step

/-! ## What the caller is to see -/

/-- A reader of the bytes `w`, after the events: it has got and skipped what is before `rest`, and
it got an empty buffer only at the end. -/
inductive Reads (w : List α) : List (Event α) → List α → Prop
  | start : Reads w [] w
  | got {log : List (Event α)} {buf rest : List α} (h : Reads w log (buf ++ rest))
    (hend : buf = [] → rest = []) : Reads w (log ++ [.got buf]) rest
  | skipped {log : List (Event α)} {rest : List α} (n : Nat) (h : Reads w log rest) :
    Reads w (log ++ [.skipped n]) (rest.drop n)

/-- The bytes that remain in the requested range. -/
def left (s : FileDataSource α) : Nat :=
  (s.readBuffers.map fun r => r.size.toNat).sum + s.remain.toNat

/-- No more is skipped than remains in the requested range. -/
def Valid (s : FileDataSource α) : Action → Prop
  | .skip n => n.toNat ≤ s.left
  | _ => True

/-- The next `k` reads from a position have buffers, and their ranges can be widened below 2^64. -/
def ReadsFit (align bufferSize limit : Nat) : Nat → Nat → Prop
  | 0, _ => True
  | k + 1, pos =>
    pos = limit ∨
      (0 < bufferSize ∧ pos / align * align + bufferSize + align ≤ 2 ^ 64 ∧
        ReadsFit align bufferSize limit k
          (min ((pos / align * align + bufferSize + align - 1) / align * align) limit))

/-- A skip that ends inside a read of the queue ends inside the file. -/
def SkipFits (size : Nat) : Nat → List (IssuedRead α) → Prop
  | _, [] => True
  | n, front :: readBuffers =>
    if n < front.size.toNat then n = 0 ∨ front.pos.toNat + n ≤ size
    else SkipFits size (n - front.size.toNat) readBuffers

/-- The reads that are issued and the skips fit. -/
def Fits (s : FileDataSource α) : Action → Prop
  | .get available =>
    let t := s.waitFront available
    (t.readBuffers = [] → t.readAhead 1 ≠ 0) ∧
      ReadsFit s.file.diskReadDmaAlignment.toNat t.sizes.currentBufferSize.toNat
        (s.pos.toNat + s.remain.toNat) (t.readAhead 1 - t.readBuffers.length) s.pos.toNat
  | .skip n => SkipFits s.file.content.length n.toNat s.readBuffers
  | .adjust _ => True

instance (s : FileDataSource α) (a : Action) : Decidable (Valid s a) := by
  cases a <;> unfold Valid <;> infer_instance

def ReadsFit.dec (align bufferSize limit : Nat) :
    ∀ k pos, Decidable (ReadsFit align bufferSize limit k pos)
  | 0, _ => .isTrue trivial
  | k + 1, pos =>
    have := ReadsFit.dec align bufferSize limit k
      (min ((pos / align * align + bufferSize + align - 1) / align * align) limit)
    inferInstanceAs (Decidable (pos = limit ∨ (0 < bufferSize ∧
      pos / align * align + bufferSize + align ≤ 2 ^ 64 ∧ _)))

instance (align bufferSize limit k pos : Nat) :
    Decidable (ReadsFit align bufferSize limit k pos) :=
  ReadsFit.dec align bufferSize limit k pos

def SkipFits.dec (size : Nat) :
    ∀ n (rs : List (IssuedRead α)), Decidable (SkipFits size n rs)
  | _, [] => .isTrue trivial
  | n, front :: rs =>
    have := SkipFits.dec size (n - front.size.toNat) rs
    inferInstanceAs (Decidable (if n < front.size.toNat then n = 0 ∨ front.pos.toNat + n ≤ size
      else SkipFits size (n - front.size.toNat) rs))

instance (size n : Nat) (rs : List (IssuedRead α)) : Decidable (SkipFits size n rs) :=
  SkipFits.dec size n rs

instance [DecidableEq α] (s : FileDataSource α) (a : Action) : Decidable (Fits s a) := by
  cases a <;> unfold Fits <;> infer_instance

/-! ## Ranges of a file -/

namespace File

variable {f : File α} {p q e n : Nat}

theorem length_slice : (f.slice p q).length = min q f.content.length - p := by
  rw [slice, List.length_take, List.length_drop]
  omega

theorem slice_append (hp : p ≤ q) (hq : q ≤ e) : f.slice p q ++ f.slice q e = f.slice p e := by
  unfold slice
  have h₁ : e - p = (q - p) + (e - q) := by omega
  have h₂ : q = p + (q - p) := by omega
  rw [h₁, List.take_add, List.drop_drop, ← h₂]

theorem drop_slice : (f.slice p q).drop n = f.slice (p + n) q := by
  unfold slice
  rw [List.drop_take, List.drop_drop]
  congr 1
  omega

theorem take_slice (hn : p + n ≤ q) : (f.slice p q).take n = f.slice p (p + n) := by
  unfold slice
  rw [List.take_take, Nat.add_sub_cancel_left, Nat.min_eq_left (by omega)]

theorem slice_eq_nil : f.slice p q = [] ↔ q ≤ p ∨ f.content.length ≤ p := by
  rw [← List.length_eq_zero_iff, length_slice]
  omega

/-- Past the end of the file there is nothing more. -/
theorem slice_eq_of_le (hq : f.content.length ≤ q) (he : f.content.length ≤ e) :
    f.slice p q = f.slice p e := by
  unfold slice
  rw [List.take_of_length_le (by rw [List.length_drop]; omega),
    List.take_of_length_le (by rw [List.length_drop]; omega)]

end File

/-! ## The queue -/

/-- The queue has the bytes of the file from a position on to another; a read of no bytes is at the
end of the range. -/
def Queued (f : File α) (limit : Nat) : Nat → List (IssuedRead α) → Nat → Prop
  | p, [], q => p = q
  | p, r :: rs, q =>
    r.pos.toNat = p ∧ r.ready = f.slice p (p + r.size.toNat) ∧ (r.size = 0 → p = limit) ∧
      Queued f limit (p + r.size.toNat) rs q

namespace Queued

variable {f : File α} {limit p q : Nat} {rs : List (IssuedRead α)} {r : IssuedRead α}

theorem sum (h : Queued f limit p rs q) : p + (rs.map fun r => r.size.toNat).sum = q := by
  induction rs generalizing p with
  | nil => exact h
  | cons r rs ih =>
    rw [List.map_cons, List.sum_cons, ← Nat.add_assoc]
    exact ih h.2.2.2

theorem le (h : Queued f limit p rs q) : p ≤ q := Nat.le.intro h.sum

theorem snoc (h : Queued f limit p rs q) (hpos : r.pos.toNat = q)
    (hready : r.ready = f.slice q (q + r.size.toNat)) (hzero : r.size = 0 → q = limit) :
    Queued f limit p (rs ++ [r]) (q + r.size.toNat) := by
  induction rs generalizing p with
  | nil =>
    obtain rfl : p = q := h
    exact ⟨hpos, hready, hzero, rfl⟩
  | cons r' rs ih => exact ⟨h.1, h.2.1, h.2.2.1, ih h.2.2.2⟩

end Queued

/-! ## Reads -/

/-- An address is rounded up to one that is not below it, and not changed when it is aligned. -/
theorem roundUp_spec {a n : Nat} (ha : 0 < a) :
    n ≤ (n + a - 1) / a * a ∧ (a ∣ n → (n + a - 1) / a * a = n) := by
  constructor
  · have hmod := Nat.mod_lt (n + a - 1) ha
    have hdiv := Nat.div_add_mod' (n + a - 1) a
    omega
  · rintro ⟨k, rfl⟩
    rw [Nat.add_sub_assoc ha, Nat.mul_add_div ha, Nat.div_eq_of_lt (Nat.sub_lt ha Nat.one_pos),
      Nat.add_zero, Nat.mul_comm]

/-- The bytes from the position on, of the range of a read. -/
theorem trimFront_slice {f : File α} {start pos : UInt64} {e : Nat}
    (hstart : start.toNat ≤ pos.toNat) (he : pos.toNat ≤ e)
    (hsize : pos.toNat ≤ f.content.length) :
    (if start < pos then trimFront (pos - start) (f.slice start.toNat e)
      else .ok (f.slice start.toNat e)) = .ok (f.slice pos.toNat e) := by
  by_cases hlt : start < pos
  · have hsub : (pos - start).toNat = pos.toNat - start.toNat :=
      UInt64.toNat_sub_of_le _ _ (UInt64.le_iff_toNat_le.mpr hstart)
    rw [if_pos hlt, trimFront, if_pos, File.drop_slice, hsub, Nat.add_sub_cancel' hstart]
    rw [hsub, File.length_slice]
    omega
  · have heq : start.toNat = pos.toNat := by
      rw [UInt64.lt_iff_toNat_lt] at hlt
      omega
    rw [if_neg hlt, heq]

/-- What was read beyond the range asked for is cut off again. -/
theorem trimmed_dmaReadBulk {f : File α} {start pos remain len : UInt64}
    (hstart : start.toNat ≤ pos.toNat) (hpos : pos.toNat < start.toNat + len.toNat)
    (hend : start.toNat + len.toNat ≤ pos.toNat + remain.toNat)
    (hlimit : pos.toNat + remain.toNat < 2 ^ 64)
    (halign : start.toNat + len.toNat = pos.toNat + remain.toNat ∨
      f.diskReadDmaAlignment.toNat ∣ start.toNat + len.toNat) :
    trimmed start pos remain (f.dmaReadBulk start len) =
      .ok (f.slice pos.toNat (start.toNat + len.toNat)) := by
  obtain ⟨k, -, halign_eq⟩ := f.aligned
  have ha : 0 < f.diskReadDmaAlignment.toNat := halign_eq ▸ Nat.two_pow_pos k
  obtain ⟨hle, haligned⟩ := roundUp_spec (n := start.toNat + len.toNat) ha
  have hsize := f.size_lt
  unfold trimmed File.dmaReadBulk
  dsimp only
  generalize (start.toNat + len.toNat + f.diskReadDmaAlignment.toNat - 1) /
    f.diskReadDmaAlignment.toNat * f.diskReadDmaAlignment.toNat = u at hle haligned
  have hround : u = start.toNat + len.toNat ∨ start.toNat + len.toNat = pos.toNat + remain.toNat :=
    halign.elim Or.inr fun h => Or.inl (haligned h)
  have hreal : (start + .ofNat (f.slice start.toNat u).length).toNat =
      start.toNat + (min u f.content.length - start.toNat) := by
    have hfit : min u f.content.length - start.toNat < 2 ^ 64 := by omega
    rw [File.length_slice, UInt64.toNat_add, UInt64.toNat_ofNat_of_lt' hfit]
    exact Nat.mod_eq_of_lt (by have := start.toNat_lt; omega)
  have hsum : (pos + remain).toNat = pos.toNat + remain.toNat := by
    rw [UInt64.toNat_add]
    exact Nat.mod_eq_of_lt hlimit
  by_cases hshort : start + .ofNat (f.slice start.toNat u).length ≤ pos
  · rw [if_pos hshort, File.slice_eq_nil.mpr (Or.inr ?_)]
    rw [UInt64.le_iff_toNat_le, hreal] at hshort
    omega
  · rw [if_neg hshort]
    rw [UInt64.le_iff_toNat_le, hreal] at hshort
    have htmp : (if start + .ofNat (f.slice start.toNat u).length > pos + remain then
        (f.slice start.toNat u).take (pos + remain - start).toNat
        else f.slice start.toNat u) = f.slice start.toNat (start.toNat + len.toNat) := by
      by_cases hlong : start + .ofNat (f.slice start.toNat u).length > pos + remain
      · rw [if_pos hlong]
        rw [gt_iff_lt, UInt64.lt_iff_toNat_lt, hreal, hsum] at hlong
        have hsub : (pos + remain - start).toNat = pos.toNat + remain.toNat - start.toNat := by
          rw [UInt64.toNat_sub_of_le _ _ (by rw [UInt64.le_iff_toNat_le, hsum]; omega), hsum]
        rw [hsub, File.take_slice (by omega)]
        congr 1
        omega
      · rw [if_neg hlong]
        rw [gt_iff_lt, UInt64.lt_iff_toNat_lt, hreal, hsum] at hlong
        obtain hround | hround := hround
        · rw [hround]
        · by_cases hu : u = start.toNat + len.toNat
          · rw [hu]
          · exact File.slice_eq_of_le (by omega) (by omega)
    rw [htmp]
    exact trimFront_slice hstart (Nat.le_of_lt hpos) (by omega)

theorem toNat_min (a b : UInt64) : (min a b).toNat = min a.toNat b.toNat := by
  show (if a ≤ b then a else b).toNat = _
  split
  · rename_i h
    exact (Nat.min_eq_left (UInt64.le_iff_toNat_le.mp h)).symm
  · rename_i h
    rw [UInt64.le_iff_toNat_le] at h
    exact (Nat.min_eq_right (by omega)).symm

/-- A read of at least a byte goes beyond the position it was issued at. -/
theorem lt_roundUp {a b p : Nat} (ha : 0 < a) (hb : 0 < b) :
    p < (p / a * a + b + a - 1) / a * a ∧ a ∣ (p / a * a + b + a - 1) / a * a := by
  refine ⟨?_, Nat.dvd_mul_left a _⟩
  have hp : p < p / a * a + a := by
    have hmod := Nat.mod_lt p ha
    have hdiv := Nat.div_add_mod' p a
    omega
  have hle : p / a * a + a ≤ p / a * a + b + a - 1 := by omega
  have hdiv := Nat.div_le_div_right (c := a) hle
  rw [Nat.add_div_right _ ha, Nat.mul_div_cancel _ ha] at hdiv
  have hmul := Nat.mul_le_mul_right a hdiv
  rw [Nat.succ_mul] at hmul
  exact Nat.lt_of_lt_of_le hp hmul

/-- A read that is issued. -/
theorem issueRead_spec {s : FileDataSource α} {limit : Nat}
    (hrange : s.pos.toNat + s.remain.toNat = limit) (hlimit : limit < 2 ^ 64)
    (hremain : s.remain ≠ 0) (hsize : 0 < s.sizes.currentBufferSize.toNat)
    (hfit : s.pos.toNat / s.file.diskReadDmaAlignment.toNat * s.file.diskReadDmaAlignment.toNat +
      s.sizes.currentBufferSize.toNat + s.file.diskReadDmaAlignment.toNat ≤ 2 ^ 64) :
    ∃ (r : IssuedRead α) (pos remain : UInt64),
      s.issueRead = .ok { s with
        readBuffers := s.readBuffers ++ [r]
        pos
        remain } ∧
      pos.toNat = min ((s.pos.toNat / s.file.diskReadDmaAlignment.toNat *
        s.file.diskReadDmaAlignment.toNat + s.sizes.currentBufferSize.toNat +
        s.file.diskReadDmaAlignment.toNat - 1) / s.file.diskReadDmaAlignment.toNat *
        s.file.diskReadDmaAlignment.toNat) limit ∧
      pos.toNat + remain.toNat = limit ∧ s.pos.toNat + r.size.toNat = pos.toNat ∧
      r.pos = s.pos ∧ r.size ≠ 0 ∧ r.ready = s.file.slice s.pos.toNat pos.toNat := by
  have hpow := s.file.aligned
  obtain ⟨k, -, halign⟩ := s.file.aligned
  have ha : 0 < s.file.diskReadDmaAlignment.toNat := halign ▸ Nat.two_pow_pos k
  obtain ⟨hbeyond, hdvd⟩ := lt_roundUp (p := s.pos.toNat) ha hsize
  have hremain' : 0 < s.remain.toNat :=
    Nat.pos_of_ne_zero fun h => hremain (UInt64.toNat_inj.mp h)
  have hstart := toNat_alignDown s.pos hpow
  have hdown : s.pos.toNat / s.file.diskReadDmaAlignment.toNat * s.file.diskReadDmaAlignment.toNat ≤
      s.pos.toNat := Nat.div_mul_le_self _ _
  have hsum : (alignDown s.pos s.file.diskReadDmaAlignment + s.sizes.currentBufferSize).toNat =
      s.pos.toNat / s.file.diskReadDmaAlignment.toNat * s.file.diskReadDmaAlignment.toNat +
        s.sizes.currentBufferSize.toNat := by
    rw [UInt64.toNat_add, hstart]
    exact Nat.mod_eq_of_lt (by omega)
  have hup := toNat_alignUp (v := alignDown s.pos s.file.diskReadDmaAlignment +
    s.sizes.currentBufferSize) hpow (by rw [hsum]; omega)
  have htop : (s.pos + s.remain).toNat = limit := by
    rw [UInt64.toNat_add, hrange]
    exact Nat.mod_eq_of_lt hlimit
  rw [hsum] at hup
  have hend := toNat_min (alignUp (alignDown s.pos s.file.diskReadDmaAlignment +
    s.sizes.currentBufferSize) s.file.diskReadDmaAlignment) (s.pos + s.remain)
  rw [hup, htop] at hend
  unfold issueRead
  dsimp only
  generalize alignDown s.pos s.file.diskReadDmaAlignment = start at *
  generalize min (alignUp (start + s.sizes.currentBufferSize) s.file.diskReadDmaAlignment)
    (s.pos + s.remain) = stop at *
  generalize (s.pos.toNat / s.file.diskReadDmaAlignment.toNat * s.file.diskReadDmaAlignment.toNat +
    s.sizes.currentBufferSize.toNat + s.file.diskReadDmaAlignment.toNat - 1) /
    s.file.diskReadDmaAlignment.toNat * s.file.diskReadDmaAlignment.toNat = u at *
  have hlen : (stop - start).toNat = stop.toNat - start.toNat :=
    UInt64.toNat_sub_of_le _ _ (by rw [UInt64.le_iff_toNat_le]; omega)
  have hread : (stop - s.pos).toNat = stop.toNat - s.pos.toNat :=
    UInt64.toNat_sub_of_le _ _ (by rw [UInt64.le_iff_toNat_le]; omega)
  have hleft : (s.remain - (stop - s.pos)).toNat = s.remain.toNat - (stop.toNat - s.pos.toNat) := by
    rw [UInt64.toNat_sub_of_le _ _ (by rw [UInt64.le_iff_toNat_le, hread]; omega), hread]
  have hactual : (min (stop - s.pos) s.remain).toNat = stop.toNat - s.pos.toNat := by
    rw [toNat_min, hread]
    omega
  have hstop : start.toNat + (stop - start).toNat = stop.toNat := by omega
  have htrim : trimmed start s.pos s.remain (s.file.dmaReadBulk start (stop - start)) =
      .ok (s.file.slice s.pos.toNat (start.toNat + (stop - start).toNat)) := by
    refine trimmed_dmaReadBulk (by omega) (by omega) (by omega) (by omega) ?_
    rw [hstop]
    by_cases hu : u ≤ limit
    · right
      rw [hend, Nat.min_eq_left hu]
      exact hdvd
    · left
      omega
  rw [htrim, ok_bind, hstop]
  refine ⟨_, _, _, rfl, hend, by omega, ?_, rfl, ?_, rfl⟩
  · show s.pos.toNat + (min (stop - s.pos) s.remain).toNat = _
    omega
  · intro hzero
    have hzero : (min (stop - s.pos) s.remain).toNat = 0 := congrArg UInt64.toNat hzero
    omega

/-! ## The invariant -/

/-- The invariant of the runs: the queue goes on where the caller has got to, up to the next read. -/
structure Inv (f : File α) (offset limit : Nat) (s : FileDataSource α) : Prop where
  file : s.file = f
  range : s.pos.toNat + s.remain.toNat = limit
  queue : ∃ p, Queued f limit p s.readBuffers s.pos.toNat ∧
    Reads (f.slice offset limit) s.log (f.slice p limit)

variable {f : File α} {offset limit : Nat} {s : FileDataSource α}

/-- At the end of the range no read is issued. -/
theorem readsFit_limit (align bufferSize limit k : Nat) :
    ReadsFit align bufferSize limit k limit := by
  cases k with
  | zero => trivial
  | succ k => exact Or.inl rfl

theorem issueReads_inv {additional k : Nat} (hadd : 0 < additional) (hlimit : limit < 2 ^ 64)
    (h : Inv f offset limit s) (hne : s.readBuffers ≠ [] ∨ 0 < k)
    (hfit : ReadsFit f.diskReadDmaAlignment.toNat s.sizes.currentBufferSize.toNat limit k
      s.pos.toNat) :
    ∃ t, issueReads additional k s = .ok t ∧ Inv f offset limit t ∧ t.readBuffers ≠ [] := by
  induction k generalizing s with
  | zero => exact ⟨s, rfl, h, hne.resolve_right (Nat.lt_irrefl 0)⟩
  | succ k ih =>
    obtain ⟨p, hq, hreads⟩ := h.queue
    have hrange := h.range
    rw [issueReads]
    by_cases hremain : s.remain = 0
    · have hpos : s.pos.toNat = limit := by
        rw [hremain] at hrange
        exact hrange
      rw [if_pos hremain]
      by_cases hlen : s.readBuffers.length ≥ additional
      · rw [if_pos hlen]
        refine ⟨s, rfl, h, ?_⟩
        rw [← List.length_pos_iff]
        exact Nat.lt_of_lt_of_le hadd hlen
      · rw [if_neg hlen]
        refine ih ⟨h.file, hrange, p, hq.snoc (r := ⟨s.pos, 0, []⟩) rfl ?_ fun _ => hpos, hreads⟩
          (Or.inl (List.append_ne_nil_of_right_ne_nil _ (List.cons_ne_nil _ _))) ?_
        · exact (File.slice_eq_nil.mpr (Or.inl (Nat.le_refl _))).symm
        · show ReadsFit _ _ limit k s.pos.toNat
          rw [hpos]
          exact readsFit_limit _ _ limit k
    · rw [if_neg hremain]
      have hpos : s.pos.toNat ≠ limit := by
        intro hpos
        have hzero : s.remain.toNat = 0 := by omega
        exact hremain (UInt64.toNat_inj.mp hzero)
      obtain ⟨hsize, hwide, hnext⟩ := hfit.resolve_left hpos
      rw [← h.file] at hwide hnext
      obtain ⟨r, pos, remain, hissue, hpos', hrange', hr, hrpos, hrsize, hready⟩ :=
        issueRead_spec hrange hlimit hremain hsize hwide
      rw [h.file, ← hr] at hready
      rw [hissue, ok_bind]
      refine ih ⟨h.file, hrange', p, ?_, hreads⟩
        (Or.inl (List.append_ne_nil_of_right_ne_nil _ (List.cons_ne_nil _ _))) ?_
      · show Queued f limit p (s.readBuffers ++ [r]) pos.toNat
        rw [← hr]
        exact hq.snoc (by rw [hrpos]) hready fun hzero => absurd hzero hrsize
      · show ReadsFit _ _ limit k pos.toNat
        rw [hpos', ← h.file]
        exact hnext

theorem get_inv {available : Bool} (hlimit : limit < 2 ^ 64) (h : Inv f offset limit s)
    (hfits : Fits s (.get available)) :
    ∃ t, s.step (.get available) = .ok t ∧ Inv f offset limit t := by
  obtain ⟨hne, hfit⟩ := hfits
  have hwait : ∃ sizes, s.waitFront available = { s with sizes } := by
    unfold waitFront
    split
    · exact ⟨_, rfl⟩
    · exact ⟨_, rfl⟩
  obtain ⟨sizes, hwait⟩ := hwait
  rw [hwait] at hne hfit
  rw [h.range, h.file] at hfit
  have hk : s.readBuffers ≠ [] ∨
      0 < ({ s with sizes } : FileDataSource α).readAhead 1 - s.readBuffers.length := by
    by_cases hnil : s.readBuffers = []
    · right
      rw [hnil]
      exact Nat.pos_of_ne_zero (hne hnil)
    · exact Or.inl hnil
  obtain ⟨t, ht, hinv, htne⟩ := issueReads_inv (s := { s with sizes }) Nat.one_pos
    hlimit ⟨h.file, h.range, h.queue⟩ hk hfit
  obtain ⟨p, hq, hreads⟩ := hinv.queue
  have hget : s.get available = match t.readBuffers with
      | [] => .error .emptyQueue
      | ret :: readBuffers => .ok (ret.ready, { t with
          readBuffers
          sizes := t.sizes.updateHistoryConsumed ret.size }) := by
    unfold get issueReadAheads
    rw [hwait]
    exact congrArg (· >>= _) ht
  unfold step
  dsimp only
  rw [hget]
  cases hbufs : t.readBuffers with
  | nil => exact absurd hbufs htne
  | cons r rs =>
    rw [hbufs] at hq
    obtain ⟨hpos, hready, hzero, hq⟩ := hq
    have hle : p + r.size.toNat ≤ limit := by
      have hle := hq.le
      have hrange := hinv.range
      omega
    refine ⟨_, rfl, hinv.file, hinv.range, p + r.size.toNat, hq, ?_⟩
    refine Reads.got ?_ fun hnil => ?_
    · rw [hready, File.slice_append (Nat.le_add_right p _) hle]
      exact hreads
    · rw [hready, File.slice_eq_nil] at hnil
      rw [File.slice_eq_nil]
      obtain hnil | hnil := hnil
      · have hsize : r.size = 0 := UInt64.toNat_inj.mp (show r.size.toNat = 0 by omega)
        exact Or.inl (by rw [hzero hsize]; exact Nat.le_add_right _ _)
      · exact Or.inr (Nat.le_trans hnil (Nat.le_add_right _ _))

/-- The queue after a skip; what is left of the skip when it is empty. -/
theorem skipBuffers_spec {p q : Nat} {n dropped : UInt64} {rs : List (IssuedRead α)}
    (hq : Queued f limit p rs q) (hlt : q < 2 ^ 64)
    (hfits : SkipFits f.content.length n.toNat rs) :
    ∃ m rs' d, skipBuffers n rs dropped = .ok (m, rs', d) ∧
      Queued f limit (p + n.toNat) rs' (q + m.toNat) ∧ (m = 0 ∨ rs' = []) := by
  induction rs generalizing p n dropped with
  | nil =>
    obtain rfl : p = q := hq
    exact ⟨n, [], dropped, rfl, rfl, Or.inr rfl⟩
  | cons r rs ih =>
    rw [skipBuffers]
    by_cases hn : n = 0
    · rw [if_pos hn, hn]
      exact ⟨0, r :: rs, dropped, rfl, hq, Or.inl rfl⟩
    · obtain ⟨hpos, hready, hzero, hq⟩ := hq
      have hn' : n.toNat ≠ 0 := fun h => hn (UInt64.toNat_inj.mp h)
      rw [if_neg hn]
      by_cases hinside : n < r.size
      · have hlt' := UInt64.lt_iff_toNat_lt.mp hinside
        rw [SkipFits, if_pos hlt', hpos] at hfits
        have hfit := hfits.resolve_left hn'
        have hle := hq.le
        have hsize : (r.size - n).toNat = r.size.toNat - n.toNat :=
          UInt64.toNat_sub_of_le _ _ (UInt64.le_iff_toNat_le.mpr (Nat.le_of_lt hlt'))
        have htrim : trimFront n r.ready = .ok (f.slice (p + n.toNat) (p + r.size.toNat)) := by
          rw [hready, trimFront, if_pos, File.drop_slice]
          rw [File.length_slice]
          omega
        rw [if_pos hinside, htrim, ok_bind]
        refine ⟨0, _, dropped, rfl, ⟨?_, ?_, ?_, ?_⟩, Or.inl rfl⟩
        · show (r.pos + n).toNat = p + n.toNat
          rw [UInt64.toNat_add, hpos]
          exact Nat.mod_eq_of_lt (by omega)
        · show f.slice (p + n.toNat) (p + r.size.toNat) = f.slice _ (p + n.toNat + (r.size - n).toNat)
          congr 1
          omega
        · intro hz
          have hz : (r.size - n).toNat = 0 := congrArg UInt64.toNat hz
          omega
        · show Queued f limit (p + n.toNat + (r.size - n).toNat) rs (q + 0)
          have heq : p + n.toNat + (r.size - n).toNat = p + r.size.toNat := by omega
          rw [heq]
          exact hq
      · have hge : r.size.toNat ≤ n.toNat := by
          rw [UInt64.lt_iff_toNat_lt] at hinside
          omega
        have hsub : (n - r.size).toNat = n.toNat - r.size.toNat :=
          UInt64.toNat_sub_of_le _ _ (UInt64.le_iff_toNat_le.mpr hge)
        rw [SkipFits, if_neg (Nat.not_lt.mpr hge), ← hsub] at hfits
        rw [if_neg hinside]
        obtain ⟨m, rs', d, heq, hq', hm⟩ := ih hq hfits
        refine ⟨m, rs', d, heq, ?_, hm⟩
        have hsum : p + n.toNat = p + r.size.toNat + (n - r.size).toNat := by omega
        rw [hsum]
        exact hq'

theorem skip_inv {n : UInt64} (hlimit : limit < 2 ^ 64) (h : Inv f offset limit s)
    (hvalid : n.toNat ≤ s.left) (hfits : SkipFits f.content.length n.toNat s.readBuffers) :
    ∃ t, s.step (.skip n) = .ok t ∧ Inv f offset limit t := by
  obtain ⟨p, hq, hreads⟩ := h.queue
  have hrange := h.range
  have hsum := hq.sum
  unfold left at hvalid
  obtain ⟨m, rs, d, hskip, hq', hm⟩ := skipBuffers_spec hq (by omega) hfits
  have hle : m.toNat ≤ s.remain.toNat := by
    obtain hm | hm := hm
    · rw [hm]
      exact Nat.zero_le _
    · rw [hm] at hq'
      have heq : p + n.toNat = s.pos.toNat + m.toNat := hq'
      omega
  have hpos : (s.pos + m).toNat = s.pos.toNat + m.toNat := by
    rw [UInt64.toNat_add]
    exact Nat.mod_eq_of_lt (by omega)
  have hremain : (s.remain - m).toNat = s.remain.toNat - m.toNat :=
    UInt64.toNat_sub_of_le _ _ (UInt64.le_iff_toNat_le.mpr hle)
  unfold step skip
  dsimp only
  rw [hskip, ok_bind]
  dsimp only
  rw [if_pos (UInt64.le_iff_toNat_le.mpr hle), ok_bind]
  refine ⟨_, rfl, h.file, ?_, p + n.toNat, ?_, ?_⟩
  · show (s.pos + m).toNat + (s.remain - m).toNat = limit
    omega
  · show Queued f limit (p + n.toNat) rs (s.pos + m).toNat
    rw [hpos]
    exact hq'
  · have hreads := Reads.skipped n.toNat hreads
    rw [File.drop_slice] at hreads
    exact hreads

/-- One action keeps the invariant. -/
theorem step_inv (hlimit : limit < 2 ^ 64) (h : Inv f offset limit s) (a : Action)
    (ha : Valid s a ∧ Fits s a) : ∃ t, s.step a = .ok t ∧ Inv f offset limit t := by
  cases a with
  | get available => exact get_inv hlimit h ha.2
  | skip n =>
    refine skip_inv hlimit h ha.1 ?_
    rw [← h.file]
    exact ha.2
  | adjust history => exact ⟨_, rfl, h.file, h.range, h.queue⟩

/-- When its reads and skips fit, the source delivers the requested range of the file, but for what
is skipped. -/
theorem run_reads_range (f : File α) (offset len : UInt64) (options : Options) (as : List Action)
    (h : Run.Along step (fun s a => Valid s a ∧ Fits s a) (init f offset len options) as) :
    ∃ s, (init f offset len options).run as = .ok s ∧
      ∃ rest, Reads ((f.content.drop offset.toNat).take len.toNat) s.log rest := by
  have hoff := offset.toNat_lt
  have hremain : (min (0xffffffffffffffff - offset) len).toNat =
      min (2 ^ 64 - 1 - offset.toNat) len.toNat := by
    have hle : offset ≤ 0xffffffffffffffff := UInt64.le_iff_toNat_le.mpr (Nat.le_of_lt_succ hoff)
    rw [toNat_min, UInt64.toNat_sub_of_le _ _ hle]
    rfl
  have hslice : (f.content.drop offset.toNat).take len.toNat =
      f.slice offset.toNat (offset.toNat + min (2 ^ 64 - 1 - offset.toNat) len.toNat) := by
    by_cases hlen : len.toNat ≤ 2 ^ 64 - 1 - offset.toNat
    · rw [Nat.min_eq_right hlen, File.slice, Nat.add_sub_cancel_left]
    · have hsize := f.size_lt
      rw [← File.slice_eq_of_le (q := offset.toNat + len.toNat) (by omega) (by omega), File.slice,
        Nat.add_sub_cancel_left]
  obtain ⟨s, hr, hinv⟩ := Run.run_ok (fun _ a hi ha => step_inv (f := f) (by omega) hi a ha)
    (s := init f offset len options)
    ⟨rfl, congrArg (offset.toNat + ·) hremain, offset.toNat, rfl, .start⟩ h
  obtain ⟨p, -, hreads⟩ := hinv.queue
  rw [← hslice] at hreads
  exact ⟨s, hr, _, hreads⟩

/-- A file of five bytes, in blocks of two. -/
def smallFile : File Nat := ⟨[1, 2, 3, 4, 5], by decide, 2, 1, by decide, rfl⟩

/-- A range that begins and ends within blocks is read ahead, and two of its bytes are skipped. -/
theorem run_reads_skip :
    let as : List Action := [.get true, .skip 1, .get false, .get true, .get true]
    ∃ s, (init smallFile 1 3 { bufferSize := 1, readAhead := 2 }).run as = .ok s ∧
      ∃ rest, Reads ((smallFile.content.drop 1).take 3) s.log rest :=
  run_reads_range smallFile 1 3 _ _ (by decide +kernel)

/-- A file that ends within its second block. -/
def shortFile : File UInt8 := ⟨List.replicate 600 0, by decide +kernel, 512, 9, by decide, rfl⟩

/-- A skip inside a range that was read ahead, past the end of the file, trims the buffer by more
than it has. -/
theorem run_reads_short :
    Run.Along step Valid (init shortFile 0 2000 { bufferSize := 512, readAhead := 1 })
      [.get true, .skip 100] ∧
    (init shortFile 0 2000 { bufferSize := 512, readAhead := 1 }).run [.get true, .skip 100] =
      .error .trimTooLong :=
  ⟨by decide +kernel, by decide +kernel⟩

end FileDataSource

end Seastar
