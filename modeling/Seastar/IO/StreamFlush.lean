import Mathlib.Algebra.Group.Nat.Defs
import Mathlib.Data.List.Induction
import Seastar.IO.OutputStream

/-!
`output_stream` without batched flushes, with the buffered and the zero-copy writes. The caller
waits for the future of each call before the next one, so a call is a function from stream to
stream. Any operation of the sink may fail; the call then resolves with its exception.
-/

namespace Seastar.OutputStream

open Lib InputStream

variable {α : Type}

/-- An operation of the sink. -/
inductive SinkCall (α : Type)
  | put (bytes : List α)
  | flush
  deriving DecidableEq, Repr

/-- The bytes it gives to the sink. -/
def SinkCall.bytes : SinkCall α → List α
  | .put bytes => bytes
  | .flush => []

/-- The bytes that are not flushed after it, when there were `owed` before. -/
def SinkCall.owed (owed : List α) : SinkCall α → List α
  | .put bytes => owed ++ bytes
  | .flush => []

/-- `class output_stream` without batched flushes. -/
structure Unbatched (α : Type) where
  size : Nat
  trimToSize : Bool
  buf : List α := []
  «end» : Nat := 0
  /-- the bytes of `_zc_bufs`, unless it is the null packet -/
  zcBufs : Option (List α) := none
  /-- history: the bytes of the writes that resolved with a value, and what the sink was asked for -/
  written : List α := []
  calls : List (SinkCall α) := []
  deriving DecidableEq, Repr

namespace Unbatched

/-- Why a call does not resolve. -/
inductive Stop
  | assertFailed
  /-- a loop takes more rounds than it is given -/
  | rounds
  deriving DecidableEq, Repr

/-- The stream when a future has resolved, and whether it holds a value. -/
abbrev Resolved (α : Type) := Unbatched α × Bool

/-- `len` of the packet of these bytes, an `unsigned`. -/
def packetLen (bytes : List α) : Nat := bytes.length % 2 ^ 32

/-- `append` of a packet. -/
def packetAppend (held p : List α) : List α := if packetLen held = 0 then p else held ++ p

/-- `then`: an exception goes past the continuation. -/
def andThen (r : Resolved α) (k : Unbatched α → Except Stop (Resolved α)) :
    Except Stop (Resolved α) :=
  if r.2 then k r.1 else .ok r

section Sink

/-! `sink` tells whether the sink's operation of a number succeeds. -/

variable (sink : Nat → Bool)

/-- The sink is asked for an operation. -/
def ask (c : SinkCall α) (s : Unbatched α) : Resolved α :=
  ({ s with calls := s.calls ++ [c] }, sink s.calls.length)

/-- `put`. -/
def put (buf : List α) (s : Unbatched α) : Resolved α := s.ask sink (.put buf)

/-- `zero_copy_put`. -/
def zeroCopyPut (p : List α) (s : Unbatched α) : Resolved α := s.ask sink (.put p)

/-- `zero_copy_split_and_put`. -/
def zeroCopySplitAndPut : Nat → List α → Unbatched α → Except Stop (Resolved α)
  | 0, _, _ => .error .rounds
  | fuel + 1, p, s =>
    if packetLen p < s.size then
      .ok ({ s with zcBufs := if packetLen p ≠ 0 then some p else none }, true)
    else andThen (s.zeroCopyPut sink (p.take s.size)) (zeroCopySplitAndPut fuel (p.drop s.size))

/-- The packet that `write` holds or puts when it is given `p`. -/
def held (s : Unbatched α) (p : List α) : List α := s.zcBufs.elim p (packetAppend · p)

/-- `write` of a packet. -/
def writePacket (fuel : Nat) (p : List α) (s : Unbatched α) : Except Stop (Resolved α) :=
  if packetLen p ≠ 0 then
    if s.end = 0 then
      let held := s.held p
      if packetLen held ≥ s.size then
        let s := { s with zcBufs := none }
        if s.trimToSize then s.zeroCopySplitAndPut sink fuel held
        else .ok (s.zeroCopyPut sink held)
      else .ok ({ s with zcBufs := some held }, true)
    else .error .assertFailed
  else .ok (s, true)

/-- `write` of a `temporary_buffer`. -/
def writeTemporary (fuel : Nat) (p : List α) (s : Unbatched α) : Except Stop (Resolved α) :=
  if p.isEmpty then .ok (s, true)
  else if s.end = 0 then s.writePacket sink fuel p
  else .error .assertFailed

/-- `flush`. -/
def flush (s : Unbatched α) : Except Stop (Resolved α) :=
  if s.end ≠ 0 then
    let buf := s.buf.take s.end
    let s := { s with
      buf := []
      «end» := 0 }
    andThen (s.put sink buf) fun s => .ok (s.ask sink .flush)
  else
    match s.zcBufs with
    | some p =>
      andThen ({ s with zcBufs := none }.zeroCopyPut sink p) fun s => .ok (s.ask sink .flush)
    | none => .ok (s, true)

section Write

variable [Inhabited α]

/-- The loop of `split_and_put`. -/
def splitRounds : Nat → List α → Unbatched α → Except Stop (Resolved α)
  | 0, _, _ => .error .rounds
  | fuel + 1, buf, s =>
    if buf.length < s.size then
      let out := if s.buf.isEmpty then allocate s.size else s.buf
      .ok ({ s with
        buf := copyTo out 0 buf
        «end» := buf.length }, true)
    else andThen (s.put sink (buf.take s.size)) (splitRounds fuel (buf.drop s.size))

/-- `split_and_put`. -/
def splitAndPut (fuel : Nat) (buf : List α) (s : Unbatched α) : Except Stop (Resolved α) :=
  if s.end = 0 then s.splitRounds sink fuel buf else .error .assertFailed

/-- What `write` does with bytes that are not buffered. -/
def putTmp (fuel : Nat) (tmp : List α) (s : Unbatched α) : Except Stop (Resolved α) :=
  if s.trimToSize then s.splitAndPut sink fuel tmp else .ok (s.put sink tmp)

/-- `write` of bytes that fill the buffer and leave at least another of its size. -/
def writeBulk (fuel : Nat) (bytes : List α) (s : Unbatched α) : Except Stop (Resolved α) :=
  if s.end ≠ 0 then
    let now := s.size - s.end
    let buf := copyTo s.buf s.end (bytes.take now)
    let s := { s with
      buf := []
      «end» := 0 }
    andThen (s.put sink (buf.take s.size)) (putTmp sink fuel (bytes.drop now))
  else s.putTmp sink fuel bytes

/-- `write` of bytes that fit in the buffer and the next one. -/
def writeBuffered (bytes : List α) (s : Unbatched α) : Resolved α :=
  let n := bytes.length
  let buf := if s.buf.isEmpty then allocate s.size else s.buf
  let now := min n (s.size - s.end)
  let buf := copyTo buf s.end (bytes.take now)
  if now = n then
    ({ s with
      buf
      «end» := s.end + now }, true)
  else
    { s with
      buf := copyTo (allocate s.size) 0 (bytes.drop now)
      «end» := n - now }.put sink buf

/-- `write` of a buffer. -/
def write (fuel : Nat) (bytes : List α) (s : Unbatched α) : Except Stop (Resolved α) :=
  if s.zcBufs.isSome then .error .assertFailed
  else
    let bulkThreshold := if s.end ≠ 0 then 2 * s.size - s.end else s.size
    if bytes.length ≥ bulkThreshold then s.writeBulk sink fuel bytes
    else .ok (s.writeBuffered sink bytes)

end Write

end Sink

/-- The calls of the stream: the buffered and the zero-copy writes, and the flush. -/
inductive Call (α : Type)
  | write (bytes : List α)
  | writePacket (bytes : List α)
  | writeTemporary (bytes : List α)
  | flush
  deriving DecidableEq, Repr

/-- What a call writes. -/
def Call.bytes : Call α → List α
  | .write bytes => bytes
  | .writePacket bytes => bytes
  | .writeTemporary bytes => bytes
  | .flush => []

section Run

variable [Inhabited α] (sink : Nat → Bool) (fuel : Nat)

/-- A call. -/
def call (s : Unbatched α) : Call α → Except Stop (Resolved α)
  | .write bytes => s.write sink fuel bytes
  | .writePacket bytes => s.writePacket sink fuel bytes
  | .writeTemporary bytes => s.writeTemporary sink fuel bytes
  | .flush => s.flush sink

/-- A call, with the history of the bytes. -/
def step (s : Unbatched α) (c : Call α) : Except Stop (Unbatched α) := do
  let r ← s.call sink fuel c
  return if r.2 then { r.1 with written := r.1.written ++ c.bytes } else r.1

end Run

/-- A new stream. -/
def init (size : Nat) (trimToSize : Bool) : Unbatched α := { size, trimToSize }

/-! ## What a flush promises -/

/-- The bytes the sink was given. -/
def bytesPut (calls : List (SinkCall α)) : List α := calls.flatMap SinkCall.bytes

/-- The bytes the sink was given since its last flush. -/
def unflushed (calls : List (SinkCall α)) : List α := calls.foldl SinkCall.owed []

/-- What is written is put, and behind every put of bytes there is a flush of the sink. -/
structure Reached (s : Unbatched α) : Prop where
  allPut : s.written.Sublist (bytesPut s.calls)
  flushed : ∀ before bytes after, s.calls = before ++ .put bytes :: after → bytes ≠ [] →
    .flush ∈ after

/-- A flush that resolves with a value has reached the sink. -/
def Reaches (sink : Nat → Bool) (s : Unbatched α) : Call α → Prop
  | .flush => ∀ t, s.flush sink = .ok (t, true) → t.Reached
  | _ => True

/-- The stream holds bytes when it is flushed, or the sink was given none since its own flush. -/
def Due (s : Unbatched α) : Call α → Prop
  | .flush => s.end ≠ 0 ∨ s.zcBufs.isSome ∨ unflushed s.calls = []
  | _ => True

/-- A packet that the length of a packet can count, with what the stream holds. -/
def PacketFits (s : Unbatched α) (p : List α) : Prop :=
  (s.zcBufs.getD [] ++ p).length < 2 ^ 32

/-- The packets of a call fit. -/
def Fits (s : Unbatched α) : Call α → Prop
  | .writePacket p => s.PacketFits p
  | .writeTemporary p => s.PacketFits p
  | _ => True

instance (s : Unbatched α) (c : Call α) : Decidable (s.Fits c) :=
  match c with
  | .writePacket _ => inferInstanceAs (Decidable (_ < _))
  | .writeTemporary _ => inferInstanceAs (Decidable (_ < _))
  | .write _ => .isTrue trivial
  | .flush => .isTrue trivial

instance [DecidableEq α] (s : Unbatched α) (c : Call α) : Decidable (s.Due c) :=
  match c with
  | .flush => inferInstanceAs (Decidable (_ ∨ _ ∨ _))
  | .write _ => .isTrue trivial
  | .writePacket _ => .isTrue trivial
  | .writeTemporary _ => .isTrue trivial

/-! ## The sink -/

variable {s t : Unbatched α} {r q : Resolved α} {sink : Nat → Bool} {fuel : Nat}
  {bytes rest : List α}

theorem bytesPut_append (calls calls' : List (SinkCall α)) :
    bytesPut (calls ++ calls') = bytesPut calls ++ bytesPut calls' :=
  List.flatMap_append

theorem unflushed_put (calls : List (SinkCall α)) (b : List α) :
    unflushed (calls ++ [.put b]) = unflushed calls ++ b := by
  simp [unflushed, SinkCall.owed]

theorem unflushed_flush (calls : List (SinkCall α)) : unflushed (calls ++ [.flush]) = [] := by
  simp [unflushed, SinkCall.owed]

/-- Where an operation stands in a sequence with one more. -/
theorem snoc_eq_append_cons {calls before after : List (SinkCall α)} {c d : SinkCall α} :
    calls ++ [c] = before ++ d :: after ↔
      before = calls ∧ d = c ∧ after = [] ∨
        ∃ after', after = after' ++ [c] ∧ calls = before ++ d :: after' := by
  obtain rfl | ⟨after, e, rfl⟩ := List.eq_nil_or_concat after
  · constructor
    · intro h
      obtain ⟨hcalls, hc⟩ := List.append_inj' h rfl
      exact Or.inl ⟨hcalls.symm, (List.singleton_inj.mp hc).symm, rfl⟩
    · rintro (⟨rfl, rfl, -⟩ | ⟨after', h, -⟩)
      · rfl
      · simp at h
  · rw [List.concat_eq_append, ← List.cons_append, ← List.append_assoc]
    constructor
    · intro h
      obtain ⟨hcalls, hc⟩ := List.append_inj' h rfl
      exact Or.inr ⟨after, by rw [List.singleton_inj.mp hc], hcalls⟩
    · rintro (⟨-, -, h⟩ | ⟨after', h, rfl⟩)
      · simp at h
      · obtain ⟨rfl, hc⟩ := List.append_inj' h rfl
        rw [hc]

/-- Nothing is owed exactly when a flush is behind every put of bytes. The induction is on the
last operation: a put of bytes has none behind it, a flush is behind all of them. -/
theorem unflushed_eq_nil (calls : List (SinkCall α)) : unflushed calls = [] ↔
    ∀ before bytes after, calls = before ++ .put bytes :: after → bytes ≠ [] →
      .flush ∈ after := by
  induction calls using List.reverseRecOn with
  | nil => simp [unflushed]
  | append_singleton calls c ih =>
    cases c with
    | flush =>
      rw [unflushed_flush]
      refine ⟨fun _ before bytes after h _ => ?_, fun _ => rfl⟩
      obtain ⟨-, h, -⟩ | ⟨after', rfl, -⟩ := snoc_eq_append_cons.mp h
      · cases h
      · simp
    | put b =>
      rw [unflushed_put, List.append_eq_nil_iff, ih]
      constructor
      · rintro ⟨hcalls, rfl⟩ before bytes after h hne
        obtain ⟨-, h, -⟩ | ⟨after', rfl, rfl⟩ := snoc_eq_append_cons.mp h
        · exact absurd (SinkCall.put.inj h) hne
        · simpa using hcalls _ _ _ rfl hne
      · intro h
        constructor
        · rintro before bytes after rfl hne
          have hmem := h before bytes (after ++ [.put b]) (by simp) hne
          exact (List.mem_append.mp hmem).resolve_right (by simp)
        · by_contra hne
          simpa using h calls b [] rfl hne

/-! ## What an operation takes -/

/-- The bytes the stream holds. -/
def pending (s : Unbatched α) : List α := s.zcBufs.getD [] ++ s.buf.take s.end

/-- The bytes the sink was given, and those the stream holds. -/
def content (s : Unbatched α) : List α := bytesPut s.calls ++ s.pending

/-- The buffer has the size of the stream if there is one, a packet is shorter, and only one of them
holds bytes. -/
structure Shape (s : Unbatched α) : Prop where
  endLe : s.end ≤ s.size
  length : s.buf.length = s.size ∨ s.buf = [] ∧ s.end = 0
  kinds : s.end = 0 ∨ s.zcBufs = none
  zcLt : ∀ p, s.zcBufs = some p → packetLen p < s.size

/-- An operation that is given `bytes` takes all of them, or some and fails. -/
structure Accounts (s : Unbatched α) (bytes : List α) (r : Resolved α) : Prop where
  shape : r.1.Shape
  kept : ∃ kept, kept <+: bytes ∧ (r.2 = true → kept = bytes) ∧ r.1.content = s.content ++ kept
  written : r.1.written = s.written

theorem andThen_ok {k : Unbatched α → Except Stop (Resolved α)} : andThen r k = .ok q ↔
    r.2 = true ∧ k r.1 = .ok q ∨ r.2 = false ∧ r = q := by
  unfold andThen
  cases r.2 with
  | true => simp
  | false => simp

theorem Accounts.andThen {k : Unbatched α → Except Stop (Resolved α)} (h : Accounts s bytes r)
    (hq : Unbatched.andThen r k = .ok q) (hk : k r.1 = .ok q → Accounts r.1 rest q) :
    Accounts s (bytes ++ rest) q := by
  obtain ⟨hshape, ⟨kept, hpre, hall, hcontent⟩, hwritten⟩ := h
  obtain ⟨hr, hq⟩ | ⟨hr, rfl⟩ := andThen_ok.mp hq
  · obtain ⟨hshape', ⟨kept', hpre', hall', hcontent'⟩, hwritten'⟩ := hk hq
    obtain rfl := hall hr
    refine ⟨hshape', ⟨kept ++ kept', ?_, ?_, ?_⟩, hwritten'.trans hwritten⟩
    · exact (List.prefix_append_right_inj kept).mpr hpre'
    · intro hval
      rw [hall' hval]
    · rw [hcontent', hcontent, List.append_assoc]
  · refine ⟨hshape, ⟨kept, hpre.trans (List.prefix_append _ _), ?_, hcontent⟩, hwritten⟩
    intro hval
    rw [hr] at hval
    cases hval

/-- What takes everything without the sink. -/
theorem Accounts.of_pending (hshape : t.Shape) (hcalls : t.calls = s.calls)
    (hpending : t.pending = s.pending ++ bytes) (hwritten : t.written = s.written) :
    Accounts s bytes (t, true) := by
  refine ⟨hshape, ⟨bytes, List.prefix_rfl, fun _ => rfl, ?_⟩, hwritten⟩
  show bytesPut t.calls ++ t.pending = bytesPut s.calls ++ s.pending ++ bytes
  rw [hcalls, hpending, List.append_assoc]

/-- The shape and what is held do not depend on the sink. -/
theorem ask_shape (c : SinkCall α) (h : s.Shape) : (s.ask sink c).1.Shape :=
  ⟨h.endLe, h.length, h.kinds, h.zcLt⟩

theorem ask_content (c : SinkCall α) :
    (s.ask sink c).1.content = bytesPut s.calls ++ c.bytes ++ s.pending := by
  show bytesPut (s.calls ++ [c]) ++ s.pending = _
  rw [bytesPut_append]
  simp [bytesPut]

/-- A put of what was held, of what is given or of both; the rest is held. -/
theorem Accounts.of_put {chunk : List α} (hshape : t.Shape) (hcalls : t.calls = s.calls)
    (hpending : chunk ++ t.pending = s.pending ++ bytes) (hwritten : t.written = s.written) :
    Accounts s bytes (t.ask sink (.put chunk)) := by
  refine ⟨ask_shape _ hshape, ⟨bytes, List.prefix_rfl, fun _ => rfl, ?_⟩, hwritten⟩
  rw [ask_content, hcalls, List.append_assoc]
  show bytesPut s.calls ++ (chunk ++ t.pending) = bytesPut s.calls ++ s.pending ++ bytes
  rw [hpending, List.append_assoc]

theorem pending_eq_nil (hend : s.end = 0) (hz : s.zcBufs = none) : s.pending = [] := by
  simp [pending, hend, hz]

/-- A put when the stream holds nothing. -/
theorem put_accounts (h : s.Shape) (hend : s.end = 0) (hz : s.zcBufs = none) (bytes : List α) :
    Accounts s bytes (s.ask sink (.put bytes)) := by
  apply Accounts.of_put h rfl _ rfl
  rw [pending_eq_nil hend hz, List.append_nil, List.nil_append]

/-- The stream when its buffer is sent. -/
theorem Shape.sent (h : s.Shape) : Shape { s with
    buf := []
    «end» := 0 } :=
  ⟨Nat.zero_le s.size, Or.inr ⟨rfl, rfl⟩, Or.inl rfl, h.zcLt⟩

/-- The stream with another packet, and with none. -/
theorem Shape.packet (h : s.Shape) {p : List α} (hend : s.end = 0) (hp : packetLen p < s.size) :
    Shape { s with zcBufs := some p } := by
  refine ⟨h.endLe, h.length, Or.inl hend, fun q hq => ?_⟩
  obtain rfl := Option.some.inj hq
  exact hp

theorem Shape.noPacket (h : s.Shape) : Shape { s with zcBufs := none } :=
  ⟨h.endLe, h.length, Or.inr rfl, fun _ hq => absurd hq (by simp)⟩

/-! ## Buffered writes -/

section Write

variable [Inhabited α]

theorem Shape.buffer (h : s.Shape) :
    (if s.buf.isEmpty then allocate s.size else s.buf).length = s.size ∧
      (if s.buf.isEmpty then allocate s.size else s.buf).take s.end = s.buf.take s.end :=
  buffer_of_length h.endLe h.length

/-- The loop puts a part of the size of the stream in each round, and buffers the last. -/
theorem splitRounds_accounts {buf : List α} (h : s.Shape) (hend : s.end = 0)
    (hz : s.zcBufs = none) (hr : s.splitRounds sink fuel buf = .ok r) :
    Accounts s buf r := by
  induction fuel generalizing s buf with
  | zero => cases hr
  | succ fuel ih =>
    unfold splitRounds at hr
    by_cases hlt : buf.length < s.size
    · rw [if_pos hlt] at hr
      obtain rfl := Except.ok.inj hr
      have hle : 0 + buf.length ≤ (if s.buf.isEmpty then allocate s.size else s.buf).length := by
        rw [h.buffer.1, Nat.zero_add]
        exact Nat.le_of_lt hlt
      have htake := take_copyTo hle
      rw [Nat.zero_add] at htake
      refine Accounts.of_pending ⟨Nat.le_of_lt hlt, Or.inl ?_, Or.inr hz, h.zcLt⟩ rfl ?_ rfl
      · exact (length_copyTo hle).trans h.buffer.1
      · rw [pending_eq_nil hend hz, pending, hz]
        exact htake
    · rw [if_neg hlt] at hr
      rw [← List.take_append_drop s.size buf]
      exact (put_accounts h hend hz _).andThen hr fun hq => ih (ask_shape _ h) hend hz hq

theorem putTmp_accounts {tmp : List α} (h : s.Shape) (hend : s.end = 0) (hz : s.zcBufs = none)
    (hr : s.putTmp sink fuel tmp = .ok r) : Accounts s tmp r := by
  unfold putTmp at hr
  cases htrim : s.trimToSize with
  | true =>
    rw [htrim, if_pos rfl, splitAndPut, if_pos hend] at hr
    exact splitRounds_accounts h hend hz hr
  | false =>
    rw [htrim, if_neg Bool.false_ne_true] at hr
    obtain rfl := Except.ok.inj hr
    exact put_accounts h hend hz tmp

theorem writeBulk_accounts (h : s.Shape) (hz : s.zcBufs = none)
    (hn : (if s.end ≠ 0 then 2 * s.size - s.end else s.size) ≤ bytes.length)
    (hr : s.writeBulk sink fuel bytes = .ok r) : Accounts s bytes r := by
  unfold writeBulk at hr
  by_cases hend : s.end = 0
  · rw [if_neg (not_not_intro hend)] at hr
    exact putTmp_accounts h hend hz hr
  · rw [if_pos hend] at hn hr
    have hle := h.endLe
    have hlen : s.buf.length = s.size := h.length.resolve_right fun hc => hend hc.2
    have hcopy : s.end + (bytes.take (s.size - s.end)).length = s.buf.length := by
      rw [List.length_take_of_le (by omega), hlen, Nat.add_sub_cancel' hle]
    have hfull : (copyTo s.buf s.end (bytes.take (s.size - s.end))).take s.size =
        s.buf.take s.end ++ bytes.take (s.size - s.end) := by
      have hlength := length_copyTo (Nat.le_of_eq hcopy)
      rw [List.take_of_length_le (Nat.le_of_eq (hlength.trans hlen)), copyTo_fill hcopy]
    dsimp only at hr
    rw [hfull] at hr
    rw [← List.take_append_drop (s.size - s.end) bytes]
    have hput : Accounts s (bytes.take (s.size - s.end))
        ({ s with
          buf := []
          «end» := 0 }.put sink (s.buf.take s.end ++ bytes.take (s.size - s.end))) := by
      refine Accounts.of_put (s := s) h.sent rfl ?_ rfl
      show _ ++ (s.zcBufs.getD [] ++ []) = s.zcBufs.getD [] ++ _ ++ _
      simp [hz]
    exact hput.andThen hr fun hq => putTmp_accounts (ask_shape _ h.sent) rfl hz hq

theorem writeBuffered_accounts (h : s.Shape) (hz : s.zcBufs = none)
    (hn : bytes.length < if s.end ≠ 0 then 2 * s.size - s.end else s.size) :
    Accounts s bytes (s.writeBuffered sink bytes) := by
  have hle := h.endLe
  obtain ⟨hlen, htake⟩ := h.buffer
  have hbound : bytes.length < 2 * s.size - s.end := by
    split at hn
    · exact hn
    · rename_i hend
      rw [not_not.mp hend]
      omega
  have hpending : s.pending = s.buf.take s.end := by
    rw [pending, hz]
    rfl
  unfold writeBuffered
  dsimp only
  generalize (if s.buf.isEmpty then allocate s.size else s.buf) = buf at hlen htake
  by_cases hfit : bytes.length ≤ s.size - s.end
  · have hcopy : s.end + bytes.length ≤ buf.length := by omega
    rw [Nat.min_eq_left hfit, List.take_length, if_pos rfl]
    refine Accounts.of_pending
      ⟨?_, Or.inl ((length_copyTo hcopy).trans hlen), Or.inr hz, h.zcLt⟩ rfl ?_ rfl
    · show s.end + bytes.length ≤ s.size
      omega
    · rw [hpending, ← htake, ← take_copyTo hcopy, pending, hz]
      rfl
  · rw [Nat.min_eq_right (Nat.le_of_not_le hfit), if_neg (by omega)]
    have htaken : (bytes.take (s.size - s.end)).length = s.size - s.end :=
      List.length_take_of_le (Nat.le_of_not_le hfit)
    have hrest : (bytes.drop (s.size - s.end)).length = bytes.length - (s.size - s.end) :=
      List.length_drop
    have hcopy : s.end + (bytes.take (s.size - s.end)).length = buf.length := by
      rw [htaken, hlen, Nat.add_sub_cancel' hle]
    have hnext : 0 + (bytes.drop (s.size - s.end)).length ≤ (allocate (α := α) s.size).length := by
      rw [hrest, allocate, List.length_replicate]
      omega
    have hheld := take_copyTo hnext
    rw [Nat.zero_add, hrest] at hheld
    refine Accounts.of_put (s := s) ⟨?_, Or.inl ?_, Or.inr hz, h.zcLt⟩ rfl ?_ rfl
    · show bytes.length - (s.size - s.end) ≤ s.size
      omega
    · exact (length_copyTo hnext).trans List.length_replicate
    · rw [copyTo_fill hcopy, htake, hpending, pending, hz]
      show s.buf.take s.end ++ bytes.take (s.size - s.end) ++ ([] ++ _) = _
      rw [hheld]
      simp

theorem write_accounts (h : s.Shape) (hr : s.write sink fuel bytes = .ok r) :
    Accounts s bytes r := by
  unfold Unbatched.write at hr
  cases hz : s.zcBufs with
  | some p => simp [hz] at hr
  | none =>
    rw [hz, if_neg (by simp)] at hr
    dsimp only at hr
    by_cases hn : (if s.end ≠ 0 then 2 * s.size - s.end else s.size) ≤ bytes.length
    · rw [if_pos hn] at hr
      exact writeBulk_accounts h hz hn hr
    · rw [if_neg hn] at hr
      obtain rfl := Except.ok.inj hr
      exact writeBuffered_accounts h hz (Nat.lt_of_not_le hn)

end Write

/-! ## Zero-copy writes -/

theorem packetLen_of_lt {p : List α} (h : p.length < 2 ^ 32) : packetLen p = p.length :=
  Nat.mod_eq_of_lt h

/-- The loop puts a part of the size of the stream in each round, and holds the last. -/
theorem zeroCopySplitAndPut_accounts {p : List α} (h : s.Shape) (hend : s.end = 0)
    (hz : s.zcBufs = none) (hp : p.length < 2 ^ 32)
    (hr : s.zeroCopySplitAndPut sink fuel p = .ok r) : Accounts s p r := by
  induction fuel generalizing s p with
  | zero => cases hr
  | succ fuel ih =>
    unfold zeroCopySplitAndPut at hr
    rw [packetLen_of_lt hp] at hr
    by_cases hlt : p.length < s.size
    · rw [if_pos hlt] at hr
      obtain rfl := Except.ok.inj hr
      by_cases hne : p.length = 0
      · obtain rfl := List.length_eq_zero_iff.mp hne
        refine Accounts.of_pending h.noPacket rfl ?_ rfl
        simp [pending, hz, hend]
      · rw [if_pos hne]
        refine Accounts.of_pending (h.packet hend ?_) rfl ?_ rfl
        · rwa [packetLen_of_lt hp]
        · simp [pending, hz, hend]
    · rw [if_neg hlt] at hr
      rw [← List.take_append_drop s.size p]
      refine (put_accounts h hend hz _).andThen hr fun hq => ?_
      refine ih (ask_shape _ h) hend hz ?_ hq
      rw [List.length_drop]
      omega

/-- What is held comes in front of a packet that fits. -/
theorem PacketFits.held {p : List α} (hfit : s.PacketFits p) :
    s.held p = s.zcBufs.getD [] ++ p := by
  unfold Unbatched.held
  cases hz : s.zcBufs with
  | none => rfl
  | some q =>
    rw [PacketFits, hz] at hfit
    have hq : packetLen q = q.length := by
      apply packetLen_of_lt
      simp at hfit
      omega
    show packetAppend q p = q ++ p
    unfold packetAppend
    split
    · rename_i hzero
      rw [hq] at hzero
      rw [List.length_eq_zero_iff.mp hzero, List.nil_append]
    · rfl

/-- A packet shorter than the stream's size is held, so what is held fits in the first part. -/
theorem Shape.pending_le {p : List α} (h : s.Shape) (hfit : s.PacketFits p) :
    (s.zcBufs.getD []).length ≤ s.size := by
  cases hz : s.zcBufs with
  | none => exact Nat.zero_le _
  | some q =>
    have hlt := h.zcLt q hz
    rw [PacketFits, hz, List.length_append] at hfit
    rw [packetLen_of_lt (Nat.lt_of_le_of_lt (Nat.le_add_right q.length _) hfit)] at hlt
    rw [Option.getD_some]
    exact Nat.le_of_lt hlt

theorem split_accounts {p : List α} (h : s.Shape) (hfit : s.PacketFits p) (hend : s.end = 0)
    (hge : s.size ≤ (s.held p).length)
    (hr : { s with zcBufs := none }.zeroCopySplitAndPut sink fuel (s.held p) = .ok r) :
    Accounts s p r := by
  cases fuel with
  | zero => cases hr
  | succ fuel =>
    have hlen : (s.held p).length < 2 ^ 32 := by
      rw [hfit.held]
      exact hfit
    unfold zeroCopySplitAndPut at hr
    rw [packetLen_of_lt hlen, if_neg (Nat.not_lt.mpr hge), hfit.held] at hr
    dsimp only at hr
    rw [List.take_append, List.drop_append, List.take_of_length_le (h.pending_le hfit),
      List.drop_of_length_le (h.pending_le hfit), List.nil_append] at hr
    rw [← List.take_append_drop (s.size - (s.zcBufs.getD []).length) p]
    refine Accounts.andThen (Accounts.of_put (s := s) h.noPacket rfl ?_ rfl) hr fun hq => ?_
    · simp [pending, hend]
    · refine zeroCopySplitAndPut_accounts (ask_shape _ h.noPacket) hend rfl ?_ hq
      rw [PacketFits, List.length_append] at hfit
      rw [List.length_drop]
      omega

theorem writePacket_accounts {p : List α} (h : s.Shape) (hfit : s.PacketFits p)
    (hr : s.writePacket sink fuel p = .ok r) : Accounts s p r := by
  have hlen : (s.held p).length < 2 ^ 32 := by
    rw [hfit.held]
    exact hfit
  unfold writePacket at hr
  by_cases hp : packetLen p = 0
  · rw [if_neg (not_not_intro hp)] at hr
    obtain rfl := Except.ok.inj hr
    have hnil : p = [] := by
      rw [PacketFits, List.length_append] at hfit
      rw [packetLen_of_lt (by omega)] at hp
      exact List.length_eq_zero_iff.mp hp
    refine Accounts.of_pending h rfl ?_ rfl
    rw [hnil, List.append_nil]
  · rw [if_pos hp] at hr
    by_cases hend : s.end = 0
    · rw [if_pos hend] at hr
      dsimp only at hr
      by_cases hge : packetLen (s.held p) ≥ s.size
      · rw [if_pos hge] at hr
        rw [packetLen_of_lt hlen] at hge
        cases htrim : s.trimToSize with
        | true =>
          rw [htrim, if_pos rfl] at hr
          exact split_accounts h hfit hend hge (htrim ▸ hr)
        | false =>
          rw [htrim, if_neg Bool.false_ne_true] at hr
          obtain rfl := Except.ok.inj hr
          refine Accounts.of_put (s := s) (htrim ▸ h.noPacket) rfl ?_ rfl
          simp [pending, hend, hfit.held]
      · rw [if_neg hge] at hr
        obtain rfl := Except.ok.inj hr
        refine Accounts.of_pending (h.packet hend (Nat.lt_of_not_le hge)) rfl ?_ rfl
        simp [pending, hend, hfit.held]
    · rw [if_neg hend] at hr
      cases hr

theorem writeTemporary_accounts {p : List α} (h : s.Shape) (hfit : s.PacketFits p)
    (hr : s.writeTemporary sink fuel p = .ok r) : Accounts s p r := by
  unfold writeTemporary at hr
  split at hr
  · rename_i hnil
    obtain rfl := Except.ok.inj hr
    refine Accounts.of_pending h rfl ?_ rfl
    rw [List.isEmpty_iff.mp hnil, List.append_nil]
  · split at hr
    · exact writePacket_accounts h hfit hr
    · cases hr

/-! ## The flush -/

/-- A put of what is held, and the flush of the sink. -/
theorem putFlush_spec {chunk : List α} (hshape : t.Shape) (hcalls : t.calls = s.calls)
    (hpending : chunk = s.pending) (hempty : t.pending = []) (hwritten : t.written = s.written)
    (hr : andThen (t.ask sink (.put chunk)) (fun s => .ok (s.ask sink .flush)) = .ok r) :
    Accounts s [] r ∧ (r.2 = true → r.1.pending = [] ∧ unflushed r.1.calls = []) := by
  constructor
  · have hput : Accounts s [] (t.ask sink (.put chunk)) :=
      Accounts.of_put hshape hcalls (by rw [hpending, hempty]) hwritten
    refine hput.andThen hr fun hq => ?_
    obtain rfl := Except.ok.inj hq
    refine ⟨ask_shape _ (ask_shape _ hshape), ⟨[], List.prefix_rfl, fun _ => rfl, ?_⟩, rfl⟩
    rw [ask_content, List.append_nil]
    simp [content, SinkCall.bytes]
  · intro hval
    obtain ⟨-, hq⟩ | ⟨hfail, rfl⟩ := andThen_ok.mp hr
    · obtain rfl := Except.ok.inj hq
      exact ⟨hempty, unflushed_flush _⟩
    · rw [hfail] at hval
      cases hval

/-- A flush sends what is held and flushes the sink; when nothing is held it does nothing. -/
theorem flush_spec (h : s.Shape) (hr : s.flush sink = .ok r) : Accounts s [] r ∧
    (r.2 = true → r.1.pending = [] ∧ (unflushed r.1.calls = [] ∨
      r.1 = s ∧ s.end = 0 ∧ s.zcBufs = none)) := by
  unfold Unbatched.flush at hr
  by_cases hend : s.end = 0
  · rw [if_neg (not_not_intro hend)] at hr
    cases hz : s.zcBufs with
    | none =>
      rw [hz] at hr
      obtain rfl := Except.ok.inj hr
      refine ⟨Accounts.of_pending h rfl (List.append_nil _).symm rfl, fun _ => ?_⟩
      exact ⟨pending_eq_nil hend hz, Or.inr ⟨rfl, hend, rfl⟩⟩
    | some p =>
      rw [hz] at hr
      obtain ⟨hacc, hsent⟩ := putFlush_spec (s := s) h.noPacket rfl (by simp [pending, hz, hend])
        (by simp [pending, hend]) rfl hr
      exact ⟨hacc, fun hval => ⟨(hsent hval).1, Or.inl (hsent hval).2⟩⟩
  · rw [if_pos hend] at hr
    have hz := h.kinds.resolve_left hend
    obtain ⟨hacc, hsent⟩ := putFlush_spec (s := s) h.sent rfl (by simp [pending, hz])
      (by simp [pending, hz]) rfl hr
    exact ⟨hacc, fun hval => ⟨(hsent hval).1, Or.inl (hsent hval).2⟩⟩

/-! ## The runs -/

/-- The invariant: what was written was put or is held. -/
structure Inv (s : Unbatched α) : Prop where
  shape : s.Shape
  written : s.written.Sublist s.content

theorem init_inv (size : Nat) (trimToSize : Bool) : (init size trimToSize : Unbatched α).Inv :=
  ⟨⟨Nat.zero_le size, Or.inr ⟨rfl, rfl⟩, Or.inl rfl, fun _ h => absurd h (by simp [init])⟩,
    List.nil_sublist _⟩

/-- A flush reaches the sink exactly when it finds bytes in the stream or the sink flushed. -/
theorem reaches_iff (h : s.Inv) (c : Call α) : Reaches sink s c ↔ s.Due c := by
  cases c with
  | flush =>
    constructor
    · intro hreach
      by_cases hend : s.end = 0
      · cases hz : s.zcBufs with
        | some p => exact Or.inr (Or.inl (by rw [hz]; rfl))
        | none =>
          have hflush : s.flush sink = .ok (s, true) := by
            unfold Unbatched.flush
            rw [if_neg (not_not_intro hend), hz]
          exact Or.inr (Or.inr ((unflushed_eq_nil _).mpr (hreach s hflush).flushed))
      · exact Or.inl hend
    · intro hdue t ht
      obtain ⟨hacc, hsent⟩ := flush_spec h.shape ht
      obtain ⟨hpending, hflushed⟩ := hsent rfl
      have hall : s.written.Sublist (bytesPut t.calls) := by
        obtain ⟨kept, -, hkept, hcontent⟩ := hacc.kept
        rw [hkept rfl, List.append_nil, content, hpending, List.append_nil] at hcontent
        exact hcontent ▸ h.written
      refine ⟨hacc.written ▸ hall, (unflushed_eq_nil _).mp ?_⟩
      obtain hflushed | ⟨heq, hend, hz⟩ := hflushed
      · exact hflushed
      · obtain hdue | hdue | hdue := hdue
        · exact absurd hend hdue
        · rw [hz] at hdue
          cases hdue
        · exact (congrArg (fun u => unflushed u.calls) heq).trans hdue
  | _ => exact Iff.rfl

section Run

variable [Inhabited α]

theorem call_accounts {c : Call α} (h : s.Shape) (hfit : s.Fits c)
    (hr : s.call sink fuel c = .ok r) : Accounts s c.bytes r := by
  cases c with
  | write bytes => exact write_accounts h hr
  | writePacket p => exact writePacket_accounts h hfit hr
  | writeTemporary p => exact writeTemporary_accounts h hfit hr
  | flush => exact (flush_spec h hr).1

theorem step_inv (s : Unbatched α) (c : Call α) (t : Unbatched α) (h : s.Inv) (hfit : s.Fits c)
    (ht : step sink fuel s c = .ok t) : t.Inv := by
  unfold step at ht
  obtain ⟨r, hr, ht⟩ := bind_ok.mp ht
  obtain ⟨hshape, ⟨kept, -, hkept, hcontent⟩, hwritten⟩ := call_accounts h.shape hfit hr
  obtain rfl := Except.ok.inj ht
  split
  · rename_i hval
    refine ⟨⟨hshape.endLe, hshape.length, hshape.kinds, hshape.zcLt⟩, ?_⟩
    show (r.1.written ++ c.bytes).Sublist r.1.content
    rw [hcontent, hkept hval, hwritten]
    exact h.written.append (List.Sublist.refl _)
  · refine ⟨hshape, ?_⟩
    rw [hcontent, hwritten]
    exact h.written.trans (List.sublist_append_left _ _)

/-- When packets are not longer than their length can tell, all flushes of a sequence of calls reach
the sink exactly if each finds bytes in the stream, or the sink was given none since its own. -/
theorem flush_reaches_iff (size : Nat) (trimToSize : Bool) (sink : Nat → Bool) (fuel : Nat)
    (cs : List (Call α)) (hfits : Run.Along (step sink fuel) Fits (init size trimToSize) cs) :
    Run.Along (step sink fuel) (Reaches sink) (init size trimToSize) cs ↔
      Run.Along (step sink fuel) Due (init size trimToSize) cs := by
  constructor
  · intro h
    exact (hfits.and h).of_inv (fun s c t hs hc => step_inv s c t hs hc.1)
      (fun s c hs hc => (reaches_iff hs c).mp hc.2) (init_inv size trimToSize)
  · intro h
    exact (hfits.and h).of_inv (fun s c t hs hc => step_inv s c t hs hc.1)
      (fun s c hs hc => (reaches_iff hs c).mpr hc.2) (init_inv size trimToSize)

/-- With trimming: what is buffered is flushed, and then what the splitting of a packet leaves. -/
theorem flush_reaches_trimmed :
    Run.Along (step (fun _ => true) 8) (Reaches fun _ => true) (init 2 true)
      [.write [1], .flush, .writePacket [2, 3, 4], .flush, .flush] :=
  (flush_reaches_iff 2 true (fun _ => true) 8 _ (by decide)).mpr (by decide)

/-- A write of the size of the stream goes to the sink at once, and the flush does not. -/
theorem flush_misses :
    ¬ Run.Along (step (fun _ => true) 8) (Reaches fun _ => true) (init 2 false)
      [.write [1, 2], .flush] := by
  intro h
  have hreached := (h.2 _ rfl).1 _ rfl
  have hmem := hreached.flushed [] [1, 2] [] rfl (by simp)
  cases hmem

end Run

end Unbatched

end Seastar.OutputStream
