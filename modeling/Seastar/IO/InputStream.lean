import Mathlib.Data.List.Basic

/-!
`input_stream` of `core/iostream.hh` and `core/iostream-impl.hh` over a data
source that delivers a byte string in buffers. A `temporary_buffer` is the list
of its bytes. Every operation keeps what is left of the current buffer in `_buf`;
what remains in the stream is `_buf` followed by what the source still delivers,
and each operation is described by what it does to that.
-/

namespace Seastar

variable {α : Type}

/-- A `data_source`: the buffers its `get()` delivers, none of them empty. After the last of them
it delivers empty buffers. -/
structure DataSource (α : Type) where
  chunks : List (List α)
  nonempty : ∀ c ∈ chunks, c ≠ []

namespace DataSource

/-- The bytes that are still to be delivered. -/
def bytes (fd : DataSource α) : List α := fd.chunks.flatten

/-- `get()`. -/
def get : DataSource α → List α × DataSource α
  | ⟨[], h⟩ => ([], ⟨[], h⟩)
  | ⟨c :: cs, h⟩ => (c, ⟨cs, fun d hd => h d (List.mem_cons_of_mem c hd)⟩)

/-- `skip(n)`, as `data_source_impl` defines it; `none` when it never resolves, because the
source ends before. -/
def skip : Nat → DataSource α → Option (List α × DataSource α)
  | n, ⟨[], h⟩ => if n = 0 then some ([], ⟨[], h⟩) else none
  | n, ⟨c :: cs, h⟩ =>
    if n ≤ c.length then some (c.drop n, ⟨cs, fun d hd => h d (List.mem_cons_of_mem c hd)⟩)
    else skip (n - c.length) ⟨cs, fun d hd => h d (List.mem_cons_of_mem c hd)⟩
termination_by _ fd => fd.chunks.length

/-- `get()` takes the buffer it delivers out of the source. -/
theorem get_length {fd : DataSource α} (h : fd.get.1 ≠ []) :
    fd.get.2.chunks.length < fd.chunks.length := by
  obtain ⟨chunks, hne⟩ := fd
  cases chunks with
  | nil => exact absurd rfl h
  | cons c cs => exact Nat.lt_succ_self cs.length

theorem bytes_get (fd : DataSource α) : fd.get.1 ++ fd.get.2.bytes = fd.bytes := by
  obtain ⟨chunks, hne⟩ := fd
  cases chunks with
  | nil => rfl
  | cons c cs => rfl

/-- Only the end of the source is an empty buffer. -/
theorem bytes_of_get_nil {fd : DataSource α} (h : fd.get.1 = []) : fd.bytes = [] := by
  obtain ⟨chunks, hne⟩ := fd
  cases chunks with
  | nil => rfl
  | cons c cs => exact absurd h (hne c List.mem_cons_self)

end DataSource

/-- `consumption_result`. -/
inductive ConsumptionResult (α : Type)
  | continueConsuming
  | stopConsuming (buf : List α)
  | skipBytes (n : Nat)

/-- A consumer: what it answers to a buffer, after the buffers it was given before. -/
abbrev Consumer (α : Type) := List (List α) → List α → ConsumptionResult α

/-- `class input_stream`. -/
structure InputStream (α : Type) where
  fd : DataSource α
  buf : List α := []
  eof : Bool := false

namespace InputStream

/-- `std::copy` of the bytes to a position of a buffer. -/
def copyTo (out : List α) (pos : Nat) (bytes : List α) : List α :=
  out.take pos ++ bytes ++ out.drop (pos + bytes.length)

/-- The buffer of size `n` that `read_exactly` allocates. -/
def allocate [Inhabited α] (n : Nat) : List α := List.replicate n default

/-- The copy of `read_exactly_part` out of the current buffer. -/
def takePart (n : Nat) (out : List α) (completed : Nat) (s : InputStream α) :
    List α × Nat × InputStream α :=
  if s.buf.isEmpty then (out, completed, s)
  else
    let now := min (n - completed) s.buf.length
    (copyTo out completed (s.buf.take now), completed + now, { s with buf := s.buf.drop now })

/-- `read_exactly_part`. -/
def readExactlyPart (n : Nat) (out : List α) (completed : Nat) (s : InputStream α) :
    List α × InputStream α :=
  let (out, completed, t) := takePart n out completed s
  if completed = n then (out, t)
  else if _h : s.fd.get.1.isEmpty then ([], { t with fd := s.fd.get.2, eof := true })
  else readExactlyPart n out completed { t with buf := s.fd.get.1, fd := s.fd.get.2 }
termination_by s.fd.chunks.length
decreasing_by exact DataSource.get_length (by simpa using _h)

/-- `read_exactly`. -/
def readExactly [Inhabited α] (n : Nat) (s : InputStream α) : List α × InputStream α :=
  if s.buf.length = n then (s.buf, { s with buf := [] })
  else if n < s.buf.length then (s.buf.take n, { s with buf := s.buf.drop n })
  else if s.buf.isEmpty then
    if _h : s.fd.get.1.isEmpty then ([], { s with fd := s.fd.get.2, eof := true })
    else readExactly n { s with fd := s.fd.get.2, buf := s.fd.get.1 }
  else readExactlyPart n (allocate n) 0 s
termination_by s.fd.chunks.length
decreasing_by exact DataSource.get_length (by simpa using _h)

/-- `read_up_to`, with a buffer or at the end. -/
def readUpToFrom (n : Nat) (s : InputStream α) : List α × InputStream α :=
  if s.buf.isEmpty then ([], s)
  else if s.buf.length ≤ n then (s.buf, { s with buf := [] })
  else (s.buf.take n, { s with buf := s.buf.drop n })

/-- `read_up_to`. -/
def readUpTo (n : Nat) (s : InputStream α) : List α × InputStream α :=
  if s.buf.isEmpty && !s.eof then
    let (buf, fd) := s.fd.get
    readUpToFrom n { s with fd, buf, eof := buf.isEmpty }
  else readUpToFrom n s

/-- `read`. -/
def read (s : InputStream α) : List α × InputStream α :=
  if s.eof then ([], s)
  else if s.buf.isEmpty then
    let (buf, fd) := s.fd.get
    (buf, { s with fd, eof := buf.isEmpty })
  else (s.buf, { s with buf := [] })

/-- `consume`: the buffers the consumer was given, what it handed back, and the stream. `none`
when the loop has not ended after `fuel` rounds, or a skip does not resolve. -/
def consume (consumer : Consumer α) :
    Nat → List (List α) → InputStream α → Option (List (List α) × List α × InputStream α)
  | 0, _, _ => none
  | fuel + 1, given, s =>
    if s.buf.isEmpty && !s.eof then
      let (buf, fd) := s.fd.get
      consume consumer fuel given { fd, buf, eof := buf.isEmpty }
    else
      match consumer given s.buf with
      | .continueConsuming =>
        let given := given ++ [s.buf]
        let s := { s with buf := [] }
        if s.eof then some (given, [], s) else consume consumer fuel given s
      | .stopConsuming rest => some (given ++ [s.buf], rest, { s with buf := rest })
      | .skipBytes n =>
        match s.fd.skip n with
        | none => none
        | some (buf, fd) => consume consumer fuel (given ++ [s.buf]) { s with fd, buf }

/-- `skip`. -/
def skip (n : Nat) (s : InputStream α) : Option (InputStream α) :=
  let skipBuf := min n s.buf.length
  let s := { s with buf := s.buf.drop skipBuf }
  if n - skipBuf = 0 then some s
  else (s.fd.skip (n - skipBuf)).map fun (buf, fd) => { s with fd, buf }

/-! ## What the operations do to the remaining bytes -/

/-- The bytes that remain in the stream. -/
def remaining (s : InputStream α) : List α := s.buf ++ s.fd.bytes

/-- `_eof` is only set at the end of the stream. -/
def EofAtEnd (s : InputStream α) : Prop := s.eof = true → s.remaining = []

variable {s : InputStream α} {n : Nat}

theorem remaining_get (h : s.buf = []) :
    ({ s with buf := s.fd.get.1, fd := s.fd.get.2 } : InputStream α).remaining = s.remaining := by
  show s.fd.get.1 ++ s.fd.get.2.bytes = s.buf ++ s.fd.bytes
  rw [DataSource.bytes_get, h, List.nil_append]

theorem bytes_after_end {fd : DataSource α} (h : fd.get.1 = []) : fd.get.2.bytes = [] := by
  have hb := fd.bytes_get
  rw [h, DataSource.bytes_of_get_nil h] at hb
  exact hb

theorem length_copyTo {out : List α} {pos : Nat} {bytes : List α}
    (h : pos + bytes.length ≤ out.length) : (copyTo out pos bytes).length = out.length := by
  simp only [copyTo, List.length_append, List.length_take, List.length_drop]
  omega

theorem take_copyTo {out : List α} {pos : Nat} {bytes : List α}
    (h : pos + bytes.length ≤ out.length) :
    (copyTo out pos bytes).take (pos + bytes.length) = out.take pos ++ bytes := by
  have hlen : (out.take pos ++ bytes).length = pos + bytes.length := by
    rw [List.length_append, List.length_take, Nat.min_eq_left (by omega)]
  rw [copyTo, ← hlen]
  exact List.take_left

/-- What `read_exactly_part` has copied when it has used up the buffer. -/
structure Taken (n : Nat) (out : List α) (completed : Nat) (s : InputStream α)
    (out' : List α) (completed' : Nat) (s' : InputStream α) : Prop where
  length : out'.length = n
  le : completed' ≤ n
  copied : ∃ now, completed' = completed + now ∧ now ≤ s.buf.length ∧
    out'.take completed' = out.take completed ++ s.buf.take now ∧ s'.buf = s.buf.drop now ∧
    (completed' ≠ n → now = s.buf.length)
  fd : s'.fd = s.fd
  eof : s'.eof = s.eof

theorem takePart_taken {out : List α} {completed : Nat} (hout : out.length = n)
    (hc : completed ≤ n) :
    Taken n out completed s (takePart n out completed s).1 (takePart n out completed s).2.1
      (takePart n out completed s).2.2 := by
  unfold takePart
  split
  · rename_i hempty
    have hnil : s.buf = [] := List.isEmpty_iff.mp hempty
    refine ⟨hout, hc, ⟨0, rfl, Nat.zero_le _, ?_, rfl, fun _ => ?_⟩, rfl, rfl⟩
    · rw [List.take_zero, List.append_nil]
    · rw [hnil]
      rfl
  · have hlen : (s.buf.take (min (n - completed) s.buf.length)).length =
        min (n - completed) s.buf.length := by
      rw [List.length_take]
      omega
    have hfit : completed + (s.buf.take (min (n - completed) s.buf.length)).length ≤ out.length := by
      omega
    refine ⟨(length_copyTo hfit).trans hout, ?_, ⟨min (n - completed) s.buf.length, rfl,
      Nat.min_le_right _ _, ?_, rfl, ?_⟩, rfl, rfl⟩
    · show completed + min (n - completed) s.buf.length ≤ n
      omega
    · have h := take_copyTo hfit
      rw [hlen] at h
      exact h
    · intro hne
      have hne : completed + min (n - completed) s.buf.length ≠ n := hne
      omega

/-- The bytes `read_exactly` returns: the next ones, or none when there are not enough. -/
def exactly (n : Nat) (rest : List α) : List α × List α :=
  if n ≤ rest.length then (rest.take n, rest.drop n) else ([], [])

theorem exactly_append (bs rest : List α) : exactly bs.length (bs ++ rest) = (bs, rest) := by
  rw [exactly, if_pos (by rw [List.length_append]; omega), List.take_left, List.drop_left]

theorem append_of_exactly {rest bs rest' : List α} (h : (bs, rest') = exactly n rest)
    (hn : bs.length = n) : rest = bs ++ rest' := by
  unfold exactly at h
  split at h
  · obtain ⟨rfl, rfl⟩ := Prod.mk.inj h
    rw [List.take_append_drop]
  · rename_i hlt
    obtain ⟨rfl, -⟩ := Prod.mk.inj h
    exact absurd (hn ▸ Nat.zero_le _) hlt

/-- `read_exactly_part` completes what it has copied, or drops it at the end of the stream. -/
theorem readExactlyPart_eq {out : List α} {completed : Nat} (hout : out.length = n)
    (hc : completed ≤ n) (he : s.EofAtEnd) :
    ((readExactlyPart n out completed s).1, (readExactlyPart n out completed s).2.remaining) =
        exactly n (out.take completed ++ s.remaining) ∧
      (readExactlyPart n out completed s).2.EofAtEnd := by
  induction hk : s.fd.chunks.length using Nat.strongRecOn generalizing s out completed with
  | ind k ih =>
  subst hk
  obtain ⟨hlen, hle, ⟨now, hnow, hnb, htake, hbuf, hfull⟩, hfd, heof⟩ :=
    takePart_taken (s := s) hout hc
  rw [readExactlyPart]
  generalize takePart n out completed s = r at *
  obtain ⟨out', completed', t⟩ := r
  dsimp only at *
  have hprefix : (out.take completed).length = completed := by
    rw [List.length_take, hout]
    exact Nat.min_eq_left hc
  have hsplit : out.take completed ++ s.remaining = out'.take completed' ++ t.remaining := by
    rw [htake, remaining, remaining, hfd, hbuf, List.append_assoc, ← List.append_assoc (s.buf.take now),
      List.take_append_drop]
  split
  · rename_i hdone
    have hall : out'.take completed' = out' := by rw [hdone, ← hlen, List.take_length]
    have hge : n ≤ (out' ++ t.remaining).length := by
      rw [List.length_append]
      omega
    refine ⟨?_, ?_⟩
    · rw [hsplit, hall, exactly, if_pos hge, ← hlen, List.take_left, List.drop_left]
    · intro ht
      have hs := he (heof ▸ ht)
      rw [remaining, List.append_eq_nil_iff] at hs ⊢
      rw [hbuf, hfd, hs.1, List.drop_nil]
      exact ⟨rfl, hs.2⟩
  · rename_i hmore
    have hused : t.buf = [] := by rw [hbuf, hfull hmore, List.drop_length]
    split
    · rename_i hend
      have hend : s.fd.get.1 = [] := List.isEmpty_iff.mp hend
      have hrem : t.remaining = [] := by
        rw [remaining, hused, hfd, DataSource.bytes_of_get_nil hend]
        rfl
      have hafter : ({ t with fd := s.fd.get.2, eof := true } : InputStream α).remaining = [] := by
        show t.buf ++ s.fd.get.2.bytes = []
        rw [hused, bytes_after_end hend]
        rfl
      refine ⟨?_, fun _ => hafter⟩
      have hshort : ¬ n ≤ (out'.take completed' ++ t.remaining).length := by
        rw [hrem, List.append_nil, List.length_take]
        omega
      rw [hsplit, exactly, if_neg hshort, hafter]
    · rename_i hget
      have hget : s.fd.get.1 ≠ [] := by simpa using hget
      have hrem : ({ t with buf := s.fd.get.1, fd := s.fd.get.2 } : InputStream α).remaining =
          t.remaining := by
        rw [← hfd]
        exact remaining_get hused
      have hnext := ih _ (DataSource.get_length hget) (s := { t with buf := s.fd.get.1, fd := s.fd.get.2 })
        hlen hle ?_ rfl
      · rw [hrem, ← hsplit] at hnext
        exact hnext
      · intro ht
        have hs := he (heof ▸ ht)
        rw [remaining, List.append_eq_nil_iff] at hs
        rw [hrem, remaining, hused, hfd]
        exact hs.2

/-- `read_exactly` returns the next `n` bytes, or ends the stream. -/
theorem readExactly_eq [Inhabited α] (n : Nat) (he : s.EofAtEnd) :
    ((readExactly n s).1, (readExactly n s).2.remaining) = exactly n s.remaining ∧
      (readExactly n s).2.EofAtEnd := by
  induction hk : s.fd.chunks.length using Nat.strongRecOn generalizing s with
  | ind k ih =>
  subst hk
  have hlen : s.remaining.length = s.buf.length + s.fd.bytes.length := List.length_append
  have hend : s.eof = true → s.buf = [] ∧ s.fd.bytes = [] :=
    fun h => List.append_eq_nil_iff.mp (he h)
  rw [readExactly]
  split
  · rename_i hall
    refine ⟨?_, fun ht => (hend ht).2⟩
    rw [exactly, if_pos (by omega), ← hall]
    show (s.buf, s.fd.bytes) = ((s.buf ++ s.fd.bytes).take _, (s.buf ++ s.fd.bytes).drop _)
    rw [List.take_left, List.drop_left]
  · rename_i hall
    split
    · rename_i hlt
      refine ⟨?_, fun ht => ?_⟩
      · rw [exactly, if_pos (by omega)]
        show _ = ((s.buf ++ s.fd.bytes).take n, (s.buf ++ s.fd.bytes).drop n)
        rw [List.take_append_of_le_length (Nat.le_of_lt hlt),
          List.drop_append_of_le_length (Nat.le_of_lt hlt)]
        rfl
      · show s.buf.drop n ++ s.fd.bytes = []
        rw [(hend ht).1, (hend ht).2, List.drop_nil]
        rfl
    · rename_i hge
      split
      · rename_i hempty
        have hempty : s.buf = [] := List.isEmpty_iff.mp hempty
        split
        · rename_i hget
          have hget : s.fd.get.1 = [] := List.isEmpty_iff.mp hget
          have hafter : ({ s with fd := s.fd.get.2, eof := true } : InputStream α).remaining = [] := by
            show s.buf ++ s.fd.get.2.bytes = []
            rw [hempty, bytes_after_end hget]
            rfl
          refine ⟨?_, fun _ => hafter⟩
          rw [DataSource.bytes_of_get_nil hget, hempty] at hlen
          have hpos : n ≠ 0 := by
            rintro rfl
            exact hall (by rw [hempty]; rfl)
          rw [exactly, if_neg, hafter]
          rw [hlen]
          exact Nat.not_le.mpr (Nat.pos_of_ne_zero hpos)
        · rename_i hget
          have hget : s.fd.get.1 ≠ [] := by simpa using hget
          have hrem := remaining_get hempty
          have hnext := ih _ (DataSource.get_length hget)
            (s := { s with fd := s.fd.get.2, buf := s.fd.get.1 })
            (fun ht => hrem.trans (he ht)) rfl
          rw [hrem] at hnext
          exact hnext
      · have hzero : (allocate n : List α).length = n := List.length_replicate
        have hpart := readExactlyPart_eq (s := s) hzero (Nat.zero_le n) he
        rw [List.take_zero, List.nil_append] at hpart
        exact hpart

/-- What `read_up_to` returns, when its buffer is not empty or the stream has ended. -/
theorem readUpToFrom_eq (n : Nat) (he : s.EofAtEnd) (hb : s.buf = [] → s.remaining = []) :
    (readUpToFrom n s).1 ++ (readUpToFrom n s).2.remaining = s.remaining ∧
      (readUpToFrom n s).1.length ≤ n ∧ ((readUpToFrom n s).1 = [] → n = 0 ∨ s.remaining = []) ∧
      (readUpToFrom n s).2.EofAtEnd := by
  have hend : s.eof = true → s.buf = [] ∧ s.fd.bytes = [] :=
    fun h => List.append_eq_nil_iff.mp (he h)
  unfold readUpToFrom
  split
  · rename_i hempty
    exact ⟨rfl, Nat.zero_le n, fun _ => Or.inr (hb (List.isEmpty_iff.mp hempty)), he⟩
  · split
    · rename_i hle
      exact ⟨rfl, hle, fun h => Or.inr (hb h), fun ht => (hend ht).2⟩
    · rename_i hgt
      refine ⟨?_, ?_, ?_, ?_⟩
      · show s.buf.take n ++ (s.buf.drop n ++ s.fd.bytes) = s.buf ++ s.fd.bytes
        rw [← List.append_assoc, List.take_append_drop]
      · show (s.buf.take n).length ≤ n
        rw [List.length_take]
        exact Nat.min_le_left _ _
      · intro h
        have h : (s.buf.take n).length = 0 := List.length_eq_zero_iff.mpr h
        rw [List.length_take] at h
        omega
      · intro ht
        show s.buf.drop n ++ s.fd.bytes = []
        rw [(hend ht).1, (hend ht).2, List.drop_nil]
        rfl

/-- The stream with its next buffer. -/
def fetched (s : InputStream α) : InputStream α :=
  { fd := s.fd.get.2, buf := s.fd.get.1, eof := s.fd.get.1.isEmpty }

theorem fetched_remaining (h : s.buf = []) : s.fetched.remaining = s.remaining := by
  show s.fd.get.1 ++ s.fd.get.2.bytes = s.buf ++ s.fd.bytes
  rw [DataSource.bytes_get, h, List.nil_append]

theorem fetched_end (h : s.fd.get.1 = []) : s.fetched.remaining = [] := by
  show s.fd.get.1 ++ s.fd.get.2.bytes = []
  rw [h, bytes_after_end h]
  rfl

theorem fetched_eofAtEnd : s.fetched.EofAtEnd := fun h => fetched_end (List.isEmpty_iff.mp h)

theorem readUpTo_eq (n : Nat) (he : s.EofAtEnd) :
    (readUpTo n s).1 ++ (readUpTo n s).2.remaining = s.remaining ∧
      (readUpTo n s).1.length ≤ n ∧ ((readUpTo n s).1 = [] → n = 0 ∨ s.remaining = []) ∧
      (readUpTo n s).2.EofAtEnd := by
  unfold readUpTo
  split
  · rename_i h
    obtain ⟨hempty, -⟩ := (Bool.and_eq_true _ _).mp h
    have hempty : s.buf = [] := List.isEmpty_iff.mp hempty
    rw [← fetched_remaining hempty]
    exact readUpToFrom_eq (s := s.fetched) n fetched_eofAtEnd fetched_end
  · rename_i h
    refine readUpToFrom_eq n he fun hempty => he ?_
    simpa [hempty] using h

/-- `read` returns something until the end. -/
theorem read_eq (he : s.EofAtEnd) :
    s.read.1 ++ s.read.2.remaining = s.remaining ∧ (s.read.1 = [] → s.remaining = []) ∧
      s.read.2.EofAtEnd := by
  unfold read
  split
  · rename_i heof
    exact ⟨rfl, fun _ => he heof, he⟩
  · rename_i heof
    split
    · rename_i hempty
      have hempty : s.buf = [] := List.isEmpty_iff.mp hempty
      refine ⟨?_, ?_, ?_⟩
      · show s.fd.get.1 ++ (s.buf ++ s.fd.get.2.bytes) = s.buf ++ s.fd.bytes
        rw [hempty, List.nil_append, List.nil_append, DataSource.bytes_get]
      · intro h
        rw [remaining, hempty, DataSource.bytes_of_get_nil h]
        rfl
      · intro h
        show s.buf ++ s.fd.get.2.bytes = []
        rw [hempty, bytes_after_end (List.isEmpty_iff.mp h)]
        rfl
    · rename_i hne
      exact ⟨rfl, fun h => absurd (List.isEmpty_iff.mpr h) hne, fun h => absurd h heof⟩

/-- A consumer that hands back a suffix of the buffer it was given, and does not skip. -/
structure HandsBack (consumer : Consumer α) : Prop where
  suffix : ∀ {given buf rest}, consumer given buf = .stopConsuming rest → rest <:+ buf
  noSkip : ∀ given buf n, consumer given buf ≠ .skipBytes n

/-- What `consume` has done: the consumer was given the next buffers, and what it handed back of
them is the current buffer. -/
structure Consumed (s : InputStream α) (buffers : List (List α)) (back : List α)
    (s' : InputStream α) : Prop where
  given : buffers.flatten ++ s'.fd.bytes = s.remaining
  suffix : back <:+ buffers.flatten
  buf : s'.buf = back
  eof : s'.EofAtEnd

/-- The rounds in which `consume` ends: two for each buffer of the source, and the end. -/
def rounds (s : InputStream α) : Nat :=
  2 * s.fd.chunks.length + 2 + if s.buf.isEmpty then 0 else 1

theorem rounds_fetched (h : s.buf = []) (heof : s.fd.get.1 ≠ []) :
    s.fetched.rounds < s.rounds := by
  have hlt := DataSource.get_length heof
  have hb : s.fetched.buf.isEmpty = false := by
    show s.fd.get.1.isEmpty = false
    simpa using heof
  unfold rounds
  rw [hb, h]
  show 2 * s.fd.get.2.chunks.length + 2 + 1 < 2 * s.fd.chunks.length + 2 + 0
  omega

variable {consumer : Consumer α}

/-- The call of the consumer. -/
theorem consume_call {fuel : Nat} {given : List (List α)} (hc : HandsBack consumer)
    (he : s.EofAtEnd) (hcall : (s.buf.isEmpty && !s.eof) = false)
    (ih : s.eof = false → ∃ buffers back s',
      consume consumer fuel (given ++ [s.buf]) { s with buf := [] } =
        some (given ++ [s.buf] ++ buffers, back, s') ∧ Consumed { s with buf := [] } buffers back s') :
    ∃ buffers back s', consume consumer (fuel + 1) given s = some (given ++ buffers, back, s') ∧
      Consumed s buffers back s' := by
  rw [consume, hcall, if_neg Bool.false_ne_true]
  cases hr : consumer given s.buf with
  | skipBytes n => exact absurd hr (hc.noSkip given s.buf n)
  | stopConsuming rest =>
    have hsuffix : rest <:+ s.buf := hc.suffix hr
    refine ⟨[s.buf], rest, _, rfl, ?_, ?_, rfl, ?_⟩
    · rw [List.flatten_singleton]
      rfl
    · rw [List.flatten_singleton]
      exact hsuffix
    · intro ht
      obtain ⟨hb, hfd⟩ := List.append_eq_nil_iff.mp (he ht)
      rw [hb] at hsuffix
      show rest ++ s.fd.bytes = []
      rw [List.suffix_nil.mp hsuffix, hfd]
      rfl
  | continueConsuming =>
    dsimp only
    split
    · rename_i heof
      refine ⟨[s.buf], [], _, rfl, ?_, List.nil_suffix, rfl, ?_⟩
      · rw [List.flatten_singleton]
        rfl
      · intro ht
        exact (List.append_eq_nil_iff.mp (he ht)).2
    · rename_i heof
      obtain ⟨buffers, back, s', hr, hgiven, hsuffix, hbuf, heof'⟩ := ih (by simpa using heof)
      refine ⟨s.buf :: buffers, back, s', ?_, ?_, ?_, hbuf, heof'⟩
      · rw [hr, List.append_assoc]
        rfl
      · rw [List.flatten_cons, List.append_assoc, hgiven]
        rfl
      · rw [List.flatten_cons]
        exact hsuffix.trans (List.suffix_append _ _)

/-- `consume` gives the consumer the next bytes until it stops or the stream ends. -/
theorem consume_eq (hc : HandsBack consumer) {fuel : Nat} (hf : s.rounds ≤ fuel)
    (given : List (List α)) (he : s.EofAtEnd) :
    ∃ buffers back s', consume consumer fuel given s = some (given ++ buffers, back, s') ∧
      Consumed s buffers back s' := by
  induction fuel generalizing s given with
  | zero =>
    unfold rounds at hf
    omega
  | succ fuel ih =>
    by_cases hfetch : (s.buf.isEmpty && !s.eof) = true
    · obtain ⟨hempty, -⟩ := (Bool.and_eq_true _ _).mp hfetch
      have hempty : s.buf = [] := List.isEmpty_iff.mp hempty
      have hrem := fetched_remaining hempty
      have hstep : consume consumer (fuel + 1) given s = consume consumer fuel given s.fetched := by
        rw [consume, hfetch, if_pos rfl]
        rfl
      rw [hstep]
      by_cases hget : s.fd.get.1 = []
      · -- the end of the source: one more call of the consumer
        obtain ⟨fuel, rfl⟩ : ∃ k, fuel = k + 1 := by
          unfold rounds at hf
          exact ⟨fuel - 1, by omega⟩
        have heof : s.fetched.eof = true := List.isEmpty_iff.mpr hget
        obtain ⟨buffers, back, s', hr, hd⟩ := consume_call (s := s.fetched)
          hc fetched_eofAtEnd (by simp [heof])
          (fun h => absurd (heof.symm.trans h) (Bool.false_ne_true ∘ Eq.symm))
        exact ⟨buffers, back, s', hr, hd.given.trans hrem, hd.suffix, hd.buf, hd.eof⟩
      · have hlt := rounds_fetched hempty hget
        obtain ⟨buffers, back, s', hr, hd⟩ := ih (by omega) given (fetched_eofAtEnd (s := s))
        exact ⟨buffers, back, s', hr, hd.given.trans hrem, hd.suffix, hd.buf, hd.eof⟩
    · have hcall : (s.buf.isEmpty && !s.eof) = false := by simpa using hfetch
      refine consume_call hc he hcall fun heof => ih ?_ _ ?_
      · have hne : s.buf.isEmpty = false := by simpa [heof] using hcall
        unfold rounds at hf ⊢
        rw [hne] at hf
        exact Nat.le_of_succ_le_succ hf
      · intro ht
        exact (List.append_eq_nil_iff.mp (he ht)).2

/-! ## Runs -/

/-- A call of one of the operations. -/
inductive Op (α : Type)
  | readExactly (n : Nat)
  | readUpTo (n : Nat)
  | read
  | consume (consumer : { c : Consumer α // HandsBack c })

/-- What a call returns: the buffer, or for `consume` what the consumer kept of its buffers and what
it handed back. -/
structure Outcome (α : Type) where
  bytes : List α
  handedBack : List α := []

/-- One call. By `consume_eq` the rounds given to `consume` are enough. -/
def step [Inhabited α] (s : InputStream α) : Op α → Option (Outcome α × InputStream α)
  | .readExactly n => some (⟨(s.readExactly n).1, []⟩, (s.readExactly n).2)
  | .readUpTo n => some (⟨(s.readUpTo n).1, []⟩, (s.readUpTo n).2)
  | .read => some (⟨s.read.1, []⟩, s.read.2)
  | .consume consumer =>
    (consume consumer.1 s.rounds [] s).map fun (given, back, s) =>
      (⟨given.flatten.take (given.flatten.length - back.length), back⟩, s)

/-- The calls, one after the other. -/
def run [Inhabited α] : InputStream α → List (Op α) → Option (List (Outcome α) × InputStream α)
  | s, [] => some ([], s)
  | s, op :: ops => do
    let (out, s) ← step s op
    let (outs, s) ← run s ops
    some (out :: outs, s)

/-- What a call does when the bytes `rest` remain and `rest'` remain after it. -/
def Op.Spec (op : Op α) (rest : List α) (out : Outcome α) (rest' : List α) : Prop :=
  match op with
  | .readExactly n =>
    (n ≤ rest.length → out.bytes = rest.take n ∧ rest' = rest.drop n) ∧
      (rest.length < n → out.bytes = [] ∧ rest' = [])
  | .readUpTo n =>
    out.bytes ++ rest' = rest ∧ out.bytes.length ≤ n ∧ (out.bytes = [] → n = 0 ∨ rest = [])
  | .read => out.bytes ++ rest' = rest ∧ (out.bytes = [] → rest = [])
  | .consume _ => out.bytes ++ rest' = rest ∧ out.handedBack <+: rest'

/-- Each call takes up where the one before it ended. -/
def Reads : List (Op α) → List α → List (Outcome α) → List α → Prop
  | [], rest, outs, rest' => outs = [] ∧ rest' = rest
  | op :: ops, rest, outs, rest' =>
    ∃ out outs' mid, outs = out :: outs' ∧ op.Spec rest out mid ∧ Reads ops mid outs' rest'

theorem step_spec [Inhabited α] (he : s.EofAtEnd) (op : Op α) :
    ∃ out s', step s op = some (out, s') ∧ op.Spec s.remaining out s'.remaining ∧ s'.EofAtEnd := by
  cases op with
  | readExactly n =>
    obtain ⟨heq, he'⟩ := readExactly_eq n he
    obtain ⟨h₁, h₂⟩ := Prod.ext_iff.mp heq
    refine ⟨_, _, rfl, ⟨fun hle => ?_, fun hlt => ?_⟩, he'⟩
    · rw [exactly, if_pos hle] at h₁ h₂
      exact ⟨h₁, h₂⟩
    · rw [exactly, if_neg (Nat.not_le.mpr hlt)] at h₁ h₂
      exact ⟨h₁, h₂⟩
  | readUpTo n =>
    obtain ⟨hb, hle, hnil, he'⟩ := readUpTo_eq n he
    exact ⟨_, _, rfl, ⟨hb, hle, hnil⟩, he'⟩
  | read =>
    obtain ⟨hb, hnil, he'⟩ := read_eq he
    exact ⟨_, _, rfl, ⟨hb, hnil⟩, he'⟩
  | consume consumer =>
    obtain ⟨buffers, back, s', hr, hd⟩ := consume_eq consumer.2 (Nat.le_refl s.rounds) [] he
    refine ⟨_, s', by rw [step, hr]; rfl, ⟨?_, ?_⟩, hd.eof⟩
    · obtain ⟨kept, hkept⟩ := hd.suffix
      have hlen : ([] ++ buffers).flatten.length - back.length = kept.length := by
        rw [List.nil_append, ← hkept, List.length_append, Nat.add_sub_cancel]
      dsimp only
      rw [hlen, List.nil_append, ← hkept, List.take_left, remaining, hd.buf, ← List.append_assoc,
        hkept, hd.given]
    · rw [remaining, hd.buf]
      exact List.prefix_append _ _

theorem run_spec [Inhabited α] (he : s.EofAtEnd) (ops : List (Op α)) :
    ∃ outs s', run s ops = some (outs, s') ∧ Reads ops s.remaining outs s'.remaining := by
  induction ops generalizing s with
  | nil => exact ⟨[], s, rfl, rfl, rfl⟩
  | cons op ops ih =>
    obtain ⟨out, t, hstep, hspec, ht⟩ := step_spec he op
    obtain ⟨outs, s', hrun, hreads⟩ := ih ht
    refine ⟨out :: outs, s', ?_, out, outs, t.remaining, rfl, hspec, hreads⟩
    rw [run, hstep]
    show (do let (outs, s) ← run t ops; some (out :: outs, s)) = _
    rw [hrun]
    rfl

/-- The concatenation of what the calls return. -/
def returned (outs : List (Outcome α)) : List α := (outs.map Outcome.bytes).flatten

/-- What the calls return, in order, is the beginning of the byte string; the rest remains, or the
stream is at its end. -/
theorem Reads.returned {ops : List (Op α)} {rest rest' : List α} {outs : List (Outcome α)}
    (h : Reads ops rest outs rest') :
    InputStream.returned outs <+: rest ∧
      (InputStream.returned outs ++ rest' = rest ∨ rest' = []) := by
  induction ops generalizing rest outs with
  | nil =>
    obtain ⟨rfl, rfl⟩ := h
    exact ⟨List.nil_prefix, Or.inl rfl⟩
  | cons op ops ih =>
    obtain ⟨out, outs, mid, rfl, hspec, hreads⟩ := h
    obtain ⟨hpre, hrest⟩ := ih hreads
    have hkeep : out.bytes ++ mid = rest ∨ (out.bytes = [] ∧ mid = []) := by
      cases op with
      | readExactly n =>
        rcases Nat.lt_or_ge rest.length n with hlt | hle
        · exact Or.inr (hspec.2 hlt)
        · obtain ⟨h₁, h₂⟩ := hspec.1 hle
          rw [h₁, h₂]
          exact Or.inl (List.take_append_drop n rest)
      | readUpTo n => exact Or.inl hspec.1
      | read => exact Or.inl hspec.1
      | consume consumer => exact Or.inl hspec.1
    have hcons : InputStream.returned (out :: outs) = out.bytes ++ InputStream.returned outs := by
      rw [InputStream.returned, List.map_cons, List.flatten_cons]
      rfl
    rw [hcons]
    rcases hkeep with rfl | ⟨hout, rfl⟩
    · refine ⟨(List.prefix_append_right_inj _).mpr hpre, ?_⟩
      rw [List.append_assoc, List.append_cancel_left_eq]
      exact hrest
    · rw [hout, List.nil_append, List.prefix_nil.mp hpre]
      refine ⟨List.nil_prefix, Or.inr ?_⟩
      rcases hrest with h | h
      · exact (List.append_eq_nil_iff.mp h).2
      · exact h

/-- Whatever the buffers of the source and the calls: each call returns the next bytes of the byte
string, as its `Spec` says. -/
theorem run_reads [Inhabited α] (fd : DataSource α) (ops : List (Op α)) :
    ∃ outs s', run { fd } ops = some (outs, s') ∧ Reads ops fd.bytes outs s'.remaining ∧
      returned outs <+: fd.bytes ∧ (returned outs ++ s'.remaining = fd.bytes ∨ s'.remaining = []) := by
  have he : ({ fd } : InputStream α).EofAtEnd := fun h => absurd h Bool.false_ne_true
  obtain ⟨outs, s', hrun, hreads⟩ := run_spec he ops
  exact ⟨outs, s', hrun, hreads, hreads.returned⟩

end InputStream

end Seastar
