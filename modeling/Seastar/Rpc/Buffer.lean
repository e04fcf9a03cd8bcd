import Seastar.Rpc.Wire

/-!
The buffers of the rpc protocol, `snd_buf` and `rcv_buf` of `rpc/rpc_types.hh`, the memory
output streams of `core/simple-stream.hh` and `marshall` of `rpc/rpc_impl.hh`. A send buffer
is cut into chunks, and the streams write across their ends.
-/

namespace Seastar.Rpc

open Lib

/-- The buffers of a message: a single one, or a vector of them. -/
inductive Bufs
  | one (buf : Bytes)
  | fragments (bufs : List Bytes)
  deriving DecidableEq

namespace Bufs

def toList : Bufs → List Bytes
  | one buf => [buf]
  | fragments bufs => bufs

/-- The bytes of the buffers, one behind the other. -/
def bytes (b : Bufs) : Bytes := b.toList.flatten

@[simp] theorem bytes_one (buf : Bytes) : (one buf).bytes = buf := by
  simp [bytes, toList]

@[simp] theorem bytes_fragments (bufs : List Bytes) : (fragments bufs).bytes = bufs.flatten := rfl

end Bufs

/-- `snd_buf`. -/
structure SndBuf where
  size : UInt32
  bufs : Bufs
  deriving DecidableEq

/-- `rcv_buf`, without the units it holds. -/
structure RcvBuf where
  size : UInt32 := 0
  bufs : Bufs := .fragments []
  deriving DecidableEq

/-- `snd_buf::chunk_size`. -/
def chunkSize : Nat := 128 * 1024

/-- The loop that allocates the chunks. -/
def allocateChunks (n : Nat) : List Bytes :=
  if n = 0 then []
  else List.replicate (min chunkSize n) 0 :: allocateChunks (n - min chunkSize n)
termination_by n
decreasing_by
  have hchunk : 0 < chunkSize := by decide
  omega

namespace SndBuf

/-- The constructor `snd_buf(size_t)`. -/
def allocate (size_ : Nat) : SndBuf :=
  let size := UInt32.ofNat size_
  if size.toNat ≤ chunkSize then ⟨size, .one (List.replicate size.toNat 0)⟩
  else ⟨size, .fragments (allocateChunks size_)⟩

/-- A change of `front()`. -/
def onFront (f : Bytes → Except Fault Bytes) (b : SndBuf) : Except Fault SndBuf :=
  match b.bufs with
  | .one buf => do
    let buf ← f buf
    .ok { b with bufs := .one buf }
  | .fragments [] => .error .readPast
  | .fragments (buf :: bufs) => do
    let buf ← f buf
    .ok { b with bufs := .fragments (buf :: bufs) }

/-- `write_le` to a position of `front()`. -/
def writeFront (b : SndBuf) (pos : Nat) (bs : Bytes) : Except Fault SndBuf :=
  b.onFront fun buf => writeBytes buf pos bs

/-- `front().trim_front(n)`, together with the size. -/
def trimFront (b : SndBuf) (n : Nat) : Except Fault SndBuf := do
  let b ← b.onFront fun buf => if n ≤ buf.length then .ok (buf.drop n) else .error .readPast
  .ok { b with size := b.size - UInt32.ofNat n }

end SndBuf

/-! ## The memory output streams -/

/-- `simple_memory_output_stream`: what is in front of its pointer and behind it. -/
structure SimpleOutput where
  written : Bytes := []
  left : Bytes

namespace SimpleOutput

/-- `skip`. -/
def skip (n : Nat) (o : SimpleOutput) : Except Fault SimpleOutput :=
  if o.left.length < n then .error .bufferOverflow
  else .ok ⟨o.written ++ o.left.take n, o.left.drop n⟩

/-- `write`. -/
def write (bs : Bytes) (o : SimpleOutput) : Except Fault SimpleOutput :=
  if o.left.length < bs.length then .error .bufferOverflow
  else .ok ⟨o.written ++ bs, o.left.drop bs.length⟩

end SimpleOutput

/-- `fragmented_memory_output_stream`: the fragments it is through with, the one it is in, and
those that are still ahead. -/
structure FragmentedOutput where
  behind : List Bytes := []
  current : Option SimpleOutput := none
  ahead : List Bytes
  size : Nat

namespace FragmentedOutput

/-- The fragment the stream is in. -/
def started (o : FragmentedOutput) : List Bytes :=
  (o.current.map fun c => c.written ++ c.left).toList

/-- All the fragments. -/
def bufs (o : FragmentedOutput) : List Bytes := o.behind ++ o.started ++ o.ahead

/-- The current fragment, or the next one when there is nothing left of it. -/
def nextFragment (o : FragmentedOutput) : Except Fault (SimpleOutput × FragmentedOutput) :=
  match o.current, o.ahead with
  | some ⟨written, b :: left⟩, _ => .ok (⟨written, b :: left⟩, o)
  | _, [] => .error .readPast
  | _, buf :: ahead => .ok (⟨[], buf⟩, { o with behind := o.behind ++ o.started, ahead })

variable {σ : Type}

/-- What has been written to, and what has not. -/
def done (o : FragmentedOutput) : Bytes := o.behind.flatten ++ (o.current.map (·.written)).getD []

def rest (o : FragmentedOutput) : Bytes := (o.current.map (·.left)).getD [] ++ o.ahead.flatten

/-- Where `nextFragment` stands. -/
structure Next (o : FragmentedOutput) (c : SimpleOutput) (o' : FragmentedOutput) : Prop where
  done : o'.behind.flatten ++ c.written = o.done
  rest : c.left ++ o'.ahead.flatten = o.rest
  bufs : o'.behind ++ [c.written ++ c.left] ++ o'.ahead = o.bufs
  size : o'.size = o.size
  progress : (c.left ≠ [] ∧ o'.ahead = o.ahead) ∨ o'.ahead.length < o.ahead.length

/-- Taking the next buffer moves nothing. -/
theorem next_ahead {o : FragmentedOutput} {buf : Bytes} {ahead : List Bytes}
    (hleft : (o.current.map (·.left)).getD [] = []) (hahead : o.ahead = buf :: ahead) :
    Next o ⟨[], buf⟩ { o with behind := o.behind ++ o.started, ahead } := by
  have hstarted : o.started.flatten = (o.current.map (·.written)).getD [] := by
    cases hc : o.current with
    | none => simp [started, hc]
    | some c =>
      rw [hc] at hleft
      have hleft : c.left = [] := hleft
      simp [started, hc, hleft]
  refine ⟨?_, ?_, ?_, rfl, Or.inr ?_⟩
  · simp [FragmentedOutput.done, hstarted]
  · simp [FragmentedOutput.rest, hleft, hahead]
  · simp [FragmentedOutput.bufs, hahead]
  · simp [hahead]

theorem nextFragment_next {o o' : FragmentedOutput} {c : SimpleOutput}
    (h : o.nextFragment = .ok (c, o')) : Next o c o' := by
  obtain ⟨behind, current, ahead, size⟩ := o
  rcases current with _ | ⟨written, _ | ⟨b, left⟩⟩
  · cases ahead with
    | nil => cases h
    | cons buf ahead =>
      obtain ⟨rfl, rfl⟩ := Prod.mk.inj (Except.ok.inj h)
      exact next_ahead rfl rfl
  · cases ahead with
    | nil => cases h
    | cons buf ahead =>
      obtain ⟨rfl, rfl⟩ := Prod.mk.inj (Except.ok.inj h)
      exact next_ahead rfl rfl
  · obtain ⟨rfl, rfl⟩ := Prod.mk.inj (Except.ok.inj h)
    exact ⟨rfl, rfl, by simp [FragmentedOutput.bufs, started], rfl,
      Or.inl ⟨List.cons_ne_nil _ _, rfl⟩⟩

/-- There is a fragment as long as something is left. -/
theorem nextFragment_ok {o : FragmentedOutput} (h : o.rest ≠ []) :
    ∃ c o', o.nextFragment = .ok (c, o') := by
  obtain ⟨behind, current, ahead, size⟩ := o
  rcases current with _ | ⟨written, _ | ⟨b, left⟩⟩
  · cases ahead with
    | nil => exact absurd rfl h
    | cons buf ahead => exact ⟨_, _, rfl⟩
  · cases ahead with
    | nil => exact absurd rfl h
    | cons buf ahead => exact ⟨_, _, rfl⟩
  · exact ⟨_, _, rfl⟩

/-- The loop of `for_each_fragment`. -/
def eachFragment (func : σ → Bytes → Bytes × σ) (n : Nat) (p : σ) (o : FragmentedOutput) :
    Except Fault FragmentedOutput :=
  if n = 0 then .ok o
  else
    match _h : o.nextFragment with
    | .error f => .error f
    | .ok (c, o') =>
      let k := min c.left.length n
      let (bs, p) := func p (c.left.take k)
      eachFragment func (n - k) p { o' with current := some ⟨c.written ++ bs, c.left.drop k⟩ }
termination_by n + o.ahead.length
decreasing_by
  have hnext := (nextFragment_next _h).progress
  rcases hnext with ⟨hleft, hahead⟩ | hahead
  · have hpos := List.length_pos_iff.mpr hleft
    rw [hahead]
    omega
  · show n - min c.left.length n + o'.ahead.length < n + o.ahead.length
    omega

/-- `for_each_fragment`. -/
def forEachFragment (func : σ → Bytes → Bytes × σ) (n : Nat) (p : σ) (o : FragmentedOutput) :
    Except Fault FragmentedOutput :=
  if o.size < n then .error .bufferOverflow
  else eachFragment func n p { o with size := o.size - n }

/-- `skip`. -/
def skip (n : Nat) (o : FragmentedOutput) : Except Fault FragmentedOutput :=
  o.forEachFragment (fun (_ : Unit) bv => (bv, ())) n ()

/-- `write`. -/
def write (bs : Bytes) (o : FragmentedOutput) : Except Fault FragmentedOutput :=
  o.forEachFragment (fun (p : Bytes) bv => (p.take bv.length, p.drop bv.length)) bs.length bs

end FragmentedOutput

/-- `memory_output_stream`. -/
inductive MemoryOutput
  | simple (o : SimpleOutput)
  | fragmented (o : FragmentedOutput)

namespace MemoryOutput

def skip (n : Nat) : MemoryOutput → Except Fault MemoryOutput
  | simple o => (o.skip n).map simple
  | fragmented o => (o.skip n).map fragmented

def write (bs : Bytes) : MemoryOutput → Except Fault MemoryOutput
  | simple o => (o.write bs).map simple
  | fragmented o => (o.write bs).map fragmented

/-- The memory the stream is over. -/
def bufs : MemoryOutput → Bufs
  | simple o => .one (o.written ++ o.left)
  | fragmented o => .fragments o.bufs

/-- `do_marshall`: the writes a serializer makes for the arguments. -/
def doMarshall : List Bytes → MemoryOutput → Except Fault MemoryOutput
  | [], o => .ok o
  | w :: ws, o => do
    let o ← o.write w
    doMarshall ws o

end MemoryOutput

/-- `make_serializer_stream`. -/
def makeSerializerStream (output : SndBuf) : MemoryOutput :=
  match output.bufs with
  | .one b => .simple { left := b }
  | .fragments ar => .fragmented { ahead := ar, size := output.size.toNat }

/-- What a `measuring_output_stream` counts of the writes. -/
def measure (ws : List Bytes) : Nat := ws.foldl (fun size w => size + w.length) 0

/-- `marshall`. -/
def marshall (headSpace : Nat) (ws : List Bytes) : Except Fault SndBuf := do
  let ret := SndBuf.allocate ((measure ws + headSpace) % 2 ^ 64)
  let out ← (makeSerializerStream ret).skip headSpace
  let out ← out.doMarshall ws
  .ok { ret with bufs := out.bufs }

/-! ## What the streams write -/

namespace FragmentedOutput

variable {func : σ → Bytes → Bytes × σ} {emit : σ → Bytes → Bytes} {fits : σ → Nat → Prop}

/-- What a function makes of the bytes it is run over does not depend on how they are cut. -/
structure Emits (func : σ → Bytes → Bytes × σ) (emit : σ → Bytes → Bytes)
    (fits : σ → Nat → Prop) : Prop where
  nil : ∀ p, emit p [] = []
  append : ∀ p a b, emit p (a ++ b) = (func p a).1 ++ emit (func p a).2 b
  length : ∀ p a n, fits p n → a.length ≤ n → (func p a).1.length = a.length
  fits : ∀ p a n, fits p n → a.length ≤ n → fits (func p a).2 (n - a.length)

/-- The stream has gone `n` bytes on and has left `bs` behind it. -/
structure Advanced (o o' : FragmentedOutput) (bs : Bytes) (n : Nat) : Prop where
  done : o'.done = o.done ++ bs
  rest : o'.rest = o.rest.drop n
  shape : o'.bufs.map List.length = o.bufs.map List.length
  size : o'.size = o.size

/-- One round: `k` bytes of the fragment. -/
theorem Next.advanced {o o' : FragmentedOutput} {c : SimpleOutput} {bs : Bytes} {k : Nat}
    (h : Next o c o') (hk : k ≤ c.left.length) (hbs : bs.length = k) :
    Advanced o { o' with current := some ⟨c.written ++ bs, c.left.drop k⟩ } bs k := by
  refine ⟨?_, ?_, ?_, h.size⟩
  · rw [← h.done, List.append_assoc]
    rfl
  · rw [← h.rest, List.drop_append_of_le_length hk]
    rfl
  · rw [← h.bufs]
    simp [FragmentedOutput.bufs, started, hbs]
    omega

theorem Advanced.trans {o o' o'' : FragmentedOutput} {bs bs' : Bytes} {n n' : Nat}
    (h : Advanced o o' bs n) (h' : Advanced o' o'' bs' n') :
    Advanced o o'' (bs ++ bs') (n + n') := by
  refine ⟨?_, ?_, h'.shape.trans h.shape, h'.size.trans h.size⟩
  · rw [h'.done, h.done, List.append_assoc]
  · rw [h'.rest, h.rest, List.drop_drop]

/-- The loop runs the function over the next `n` bytes. -/
theorem eachFragment_eq (he : Emits func emit fits) {n : Nat} {p : σ} {o : FragmentedOutput}
    (hn : n ≤ o.rest.length) (hp : fits p n) :
    ∃ o', o.eachFragment func n p = .ok o' ∧ Advanced o o' (emit p (o.rest.take n)) n := by
  induction hm : n + o.ahead.length using Nat.strongRecOn generalizing n p o with
  | ind m ih =>
  subst hm
  rw [eachFragment]
  by_cases h0 : n = 0
  · subst h0
    refine ⟨o, if_pos rfl, ?_, rfl, rfl, rfl⟩
    rw [List.take_zero, he.nil, List.append_nil]
  rw [if_neg h0]
  have hrest : o.rest ≠ [] := List.ne_nil_of_length_pos (by omega)
  obtain ⟨c, o₁, hfrag⟩ := nextFragment_ok hrest
  have hnext := nextFragment_next hfrag
  split
  · rename_i h
    rw [hfrag] at h
    cases h
  rename_i c' o₁' h
  rw [hfrag] at h
  obtain ⟨rfl, rfl⟩ := Prod.mk.inj (Except.ok.inj h)
  obtain ⟨k, hk⟩ : ∃ k, min c.left.length n = k := ⟨_, rfl⟩
  simp only [hk]
  have htake : (c.left.take k).length = k := by
    rw [List.length_take]
    omega
  have hlen := he.length p (c.left.take k) n hp (by omega)
  have hfits := he.fits p (c.left.take k) n hp (by omega)
  rw [htake] at hlen hfits
  have hadv := hnext.advanced (by omega) hlen
  have hsmall : n - k + o₁.ahead.length < n + o.ahead.length := by
    rcases hnext.progress with ⟨hleft, hahead⟩ | hahead
    · have hpos := List.length_pos_iff.mpr hleft
      rw [hahead]
      omega
    · omega
  obtain ⟨o₂, ho₂, hadv₂⟩ := ih _ hsmall
    (o := { o₁ with current := some ⟨c.written ++ (func p (c.left.take k)).1, c.left.drop k⟩ })
    (by rw [hadv.rest, List.length_drop]; omega) hfits rfl
  refine ⟨o₂, ho₂, ?_⟩
  have hall := hadv.trans hadv₂
  rw [hadv.rest, ← he.append, show k + (n - k) = n by omega] at hall
  have hcut : c.left.take k ++ (o.rest.drop k).take (n - k) = o.rest.take n := by
    have htake : c.left.take k = o.rest.take k := by
      rw [← hnext.rest, List.take_append_of_le_length (by omega)]
    rw [htake, ← List.take_add, show k + (n - k) = n by omega]
  rwa [hcut] at hall

theorem skip_emits : Emits (fun (_ : Unit) (bv : Bytes) => (bv, ())) (fun _ bv => bv)
    (fun _ _ => True) where
  nil _ := rfl
  append _ _ _ := rfl
  length _ _ _ _ _ := rfl
  fits _ _ _ _ _ := trivial

theorem write_emits : Emits (fun (p bv : Bytes) => (p.take bv.length, p.drop bv.length))
    (fun p bv => p.take bv.length) (fun p n => n ≤ p.length) where
  nil p := List.take_zero
  append p a b := by
    rw [List.length_append, List.take_add]
  length p a n hp ha := by
    rw [List.length_take]
    omega
  fits p a n hp ha := by
    rw [List.length_drop]
    omega

end FragmentedOutput

namespace MemoryOutput

/-- What has been written to. -/
def done : MemoryOutput → Bytes
  | simple o => o.written
  | fragmented o => o.done

/-- What has not. -/
def rest : MemoryOutput → Bytes
  | simple o => o.left
  | fragmented o => o.rest

/-- How much the stream takes. -/
def room : MemoryOutput → Nat
  | simple o => o.left.length
  | fragmented o => o.size

/-- The stream has left `bs` behind it. -/
structure Advanced (o o' : MemoryOutput) (bs : Bytes) : Prop where
  done : o'.done = o.done ++ bs
  rest : o'.rest = o.rest.drop bs.length
  room : o'.room = o.room - bs.length
  shape : o'.bufs.toList.map List.length = o.bufs.toList.map List.length

variable {o o' o'' : MemoryOutput} {bs bs' : Bytes}

theorem bytes_bufs (o : MemoryOutput) : o.bufs.bytes = o.done ++ o.rest := by
  cases o with
  | simple o => simp [bufs, done, rest]
  | fragmented o =>
    obtain ⟨behind, current, ahead, size⟩ := o
    cases current with
    | none =>
      simp [bufs, done, rest, FragmentedOutput.bufs, FragmentedOutput.started,
        FragmentedOutput.done, FragmentedOutput.rest]
    | some c =>
      simp [bufs, done, rest, FragmentedOutput.bufs, FragmentedOutput.started,
        FragmentedOutput.done, FragmentedOutput.rest]

theorem Advanced.trans (h : Advanced o o' bs) (h' : Advanced o' o'' bs') :
    Advanced o o'' (bs ++ bs') := by
  refine ⟨?_, ?_, ?_, h'.shape.trans h.shape⟩
  · rw [h'.done, h.done, List.append_assoc]
  · rw [h'.rest, h.rest, List.drop_drop, List.length_append]
  · rw [h'.room, h.room, Nat.sub_sub, List.length_append]

/-- The stream leaves `n` bytes as they are, when it takes them. -/
theorem skip_eq {n : Nat} (hn : n ≤ o.room) (hv : o.room ≤ o.rest.length) :
    ∃ o', o.skip n = .ok o' ∧ Advanced o o' (o.rest.take n) := by
  cases o with
  | simple o =>
    have hn : n ≤ o.left.length := hn
    have hlen : (o.left.take n).length = n := by
      rw [List.length_take]
      omega
    refine ⟨.simple ⟨o.written ++ o.left.take n, o.left.drop n⟩, ?_, rfl, ?_, ?_, ?_⟩
    · simp [skip, SimpleOutput.skip, Except.map, Nat.not_lt.mpr hn]
    · simp only [rest, hlen]
    · simp only [room, rest, hlen, List.length_drop]
    · simp [bufs, Bufs.toList]
  | fragmented o =>
    have hn : n ≤ o.size := hn
    have hv : o.size ≤ o.rest.length := hv
    have hlen : (o.rest.take n).length = n := by
      rw [List.length_take]
      omega
    obtain ⟨o', ho', h⟩ := FragmentedOutput.eachFragment_eq FragmentedOutput.skip_emits
      (o := { o with size := o.size - n }) (p := ()) (Nat.le_trans hn hv) trivial
    refine ⟨.fragmented o', ?_, h.done, ?_, ?_, h.shape⟩
    · simp [skip, FragmentedOutput.skip, FragmentedOutput.forEachFragment, Nat.not_lt.mpr hn, ho',
        Except.map]
    · simp only [rest, hlen]
      exact h.rest
    · simp only [room, rest, hlen]
      exact h.size

theorem skip_full {n : Nat} (hn : o.room < n) : o.skip n = .error .bufferOverflow := by
  cases o with
  | simple o =>
    have hn : o.left.length < n := hn
    simp [skip, SimpleOutput.skip, Except.map, hn]
  | fragmented o =>
    have hn : o.size < n := hn
    simp [skip, FragmentedOutput.skip, FragmentedOutput.forEachFragment, Except.map, hn]

/-- The bytes are written, when the stream takes them. -/
theorem write_eq (bs : Bytes) (hn : bs.length ≤ o.room) (hv : o.room ≤ o.rest.length) :
    ∃ o', o.write bs = .ok o' ∧ Advanced o o' bs := by
  cases o with
  | simple o =>
    have hn : bs.length ≤ o.left.length := hn
    refine ⟨.simple ⟨o.written ++ bs, o.left.drop bs.length⟩, ?_, rfl, rfl, ?_, ?_⟩
    · simp [write, SimpleOutput.write, Except.map, Nat.not_lt.mpr hn]
    · simp [room]
    · simp [bufs, Bufs.toList]
      omega
  | fragmented o =>
    have hn : bs.length ≤ o.size := hn
    have hv : o.size ≤ o.rest.length := hv
    obtain ⟨o', ho', h⟩ := FragmentedOutput.eachFragment_eq FragmentedOutput.write_emits
      (o := { o with size := o.size - bs.length }) (p := bs) (Nat.le_trans hn hv) (Nat.le_refl _)
    refine ⟨.fragmented o', ?_, ?_, h.rest, h.size, h.shape⟩
    · simp [write, FragmentedOutput.write, FragmentedOutput.forEachFragment, Nat.not_lt.mpr hn, ho',
        Except.map]
    · have hdone := h.done
      have hlen : (o.rest.take bs.length).length = bs.length := by
        rw [List.length_take]
        omega
      have hrest : ({ o with size := o.size - bs.length } : FragmentedOutput).rest = o.rest := rfl
      rw [hrest, hlen, List.take_length] at hdone
      exact hdone

theorem write_full (hn : o.room < bs.length) : o.write bs = .error .bufferOverflow := by
  cases o with
  | simple o =>
    have hn : o.left.length < bs.length := hn
    simp [write, SimpleOutput.write, Except.map, hn]
  | fragmented o =>
    have hn : o.size < bs.length := hn
    simp [write, FragmentedOutput.write, FragmentedOutput.forEachFragment, Except.map, hn]

/-- There is as much memory behind the pointer as the stream takes. -/
theorem Advanced.room_le (h : Advanced o o' bs) (hv : o.room ≤ o.rest.length) :
    o'.room ≤ o'.rest.length := by
  rw [h.room, h.rest, List.length_drop]
  omega

/-- All the writes of a serializer are made, or one of them overflows. -/
theorem doMarshall_eq (ws : List Bytes) (hn : ws.flatten.length ≤ o.room)
    (hv : o.room ≤ o.rest.length) :
    ∃ o', doMarshall ws o = .ok o' ∧ Advanced o o' ws.flatten := by
  induction ws generalizing o with
  | nil =>
    refine ⟨o, rfl, ?_, rfl, rfl, rfl⟩
    simp
  | cons w ws ih =>
    rw [List.flatten_cons, List.length_append] at hn
    obtain ⟨o₁, ho₁, h₁⟩ := write_eq w (by omega) hv
    obtain ⟨o₂, ho₂, h₂⟩ := ih (by rw [h₁.room]; omega) (h₁.room_le hv)
    refine ⟨o₂, bind_ok.mpr ⟨o₁, ho₁, ho₂⟩, ?_⟩
    rw [List.flatten_cons]
    exact h₁.trans h₂

theorem doMarshall_full {ws : List Bytes} (hn : o.room < ws.flatten.length)
    (hv : o.room ≤ o.rest.length) : doMarshall ws o = .error .bufferOverflow := by
  induction ws generalizing o with
  | nil => exact absurd hn (Nat.not_lt_zero _)
  | cons w ws ih =>
    rw [List.flatten_cons, List.length_append] at hn
    by_cases hw : o.room < w.length
    · rw [doMarshall, write_full hw]
      rfl
    · obtain ⟨o₁, ho₁, h₁⟩ := write_eq w (by omega) hv
      rw [doMarshall, ho₁, ok_bind]
      exact ih (by rw [h₁.room]; omega) (h₁.room_le hv)

end MemoryOutput

/-! ## The buffer a message is marshalled into -/

theorem allocateChunks_flatten (n : Nat) : (allocateChunks n).flatten = List.replicate n 0 := by
  induction n using Nat.strongRecOn with
  | ind n ih =>
  rw [allocateChunks]
  have hchunk : 0 < chunkSize := by decide
  by_cases h0 : n = 0
  · simp [h0]
  · rw [if_neg h0, List.flatten_cons, ih _ (by omega), List.replicate_append_replicate]
    congr 1
    omega

/-- The first chunk. -/
theorem allocateChunks_head {n : Nat} (h : n ≠ 0) :
    (allocateChunks n).head? = some (List.replicate (min chunkSize n) 0) := by
  rw [allocateChunks, if_neg h, List.head?_cons]

namespace SndBuf

/-- The bytes that go to the connection. -/
def bytes (b : SndBuf) : Bytes := b.bufs.bytes

/-- The buffer is a header, all of it in its first fragment, and a payload. -/
structure Headed (b : SndBuf) (head payload : Bytes) : Prop where
  front : ∃ f, b.bufs.toList.head? = some f ∧ head.length ≤ f.length
  bytes : b.bytes = head ++ payload
  size : b.size.toNat = head.length + payload.length

theorem allocate_size (n : Nat) : (allocate n).size = UInt32.ofNat n := by
  unfold allocate
  simp only
  split <;> rfl

/-- The first fragment is as long as a chunk, or it is all there is. -/
theorem allocate_front (n : Nat) : ∃ f, (allocate n).bufs.toList.head? = some f ∧
    min chunkSize (allocate n).size.toNat ≤ f.length := by
  rw [allocate_size]
  unfold allocate
  simp only
  split
  · exact ⟨_, rfl, by simp⟩
  · rename_i h
    have hle : (UInt32.ofNat n).toNat ≤ n := by
      rw [UInt32.toNat_ofNat']
      exact Nat.mod_le n _
    refine ⟨_, allocateChunks_head (by omega), ?_⟩
    rw [List.length_replicate]
    omega

/-- The stream over a new buffer. -/
theorem makeSerializerStream_allocate (n : Nat) :
    (makeSerializerStream (allocate n)).bufs = (allocate n).bufs ∧
      (makeSerializerStream (allocate n)).done = [] ∧
      (makeSerializerStream (allocate n)).room = (allocate n).size.toNat ∧
      ∃ m, (allocate n).size.toNat ≤ m ∧ (n < 2 ^ 32 → m = n) ∧
        (makeSerializerStream (allocate n)).rest = List.replicate m 0 := by
  have hle : (UInt32.ofNat n).toNat ≤ n := by
    rw [UInt32.toNat_ofNat']
    exact Nat.mod_le n _
  rw [allocate_size]
  unfold allocate
  simp only
  split
  · refine ⟨rfl, rfl, ?_, _, Nat.le_refl _, fun hn => ?_, rfl⟩
    · simp [makeSerializerStream, MemoryOutput.room]
    · rw [UInt32.toNat_ofNat', Nat.mod_eq_of_lt hn]
  · refine ⟨?_, rfl, rfl, n, hle, fun _ => rfl, allocateChunks_flatten n⟩
    simp [makeSerializerStream, MemoryOutput.bufs, FragmentedOutput.bufs, FragmentedOutput.started]

end SndBuf

theorem measure_eq (ws : List Bytes) : measure ws = ws.flatten.length := by
  have hfold : ∀ (ws : List Bytes) (n : Nat),
      ws.foldl (fun size w => size + w.length) n = n + ws.flatten.length := by
    intro ws
    induction ws with
    | nil => intro n; rfl
    | cons w ws ih =>
      intro n
      rw [List.foldl_cons, ih, List.flatten_cons, List.length_append, Nat.add_assoc]
  rw [measure, hfold, Nat.zero_add]

/-- A message that fits 32 bits is marshalled behind its head space. -/
theorem marshall_eq {headSpace : Nat} {ws : List Bytes} (hhead : headSpace ≤ chunkSize)
    (h : headSpace + ws.flatten.length < 2 ^ 32) :
    ∃ b, marshall headSpace ws = .ok b ∧ b.Headed (List.replicate headSpace 0) ws.flatten := by
  obtain ⟨n, hn⟩ : ∃ n, headSpace + ws.flatten.length = n := ⟨_, rfl⟩
  have hmod : (measure ws + headSpace) % 2 ^ 64 = n := by
    rw [measure_eq]
    omega
  have hsize : (SndBuf.allocate n).size.toNat = n := by
    rw [SndBuf.allocate_size, UInt32.toNat_ofNat', Nat.mod_eq_of_lt (by omega)]
  obtain ⟨hbufs, hdone, hroom, m, -, hm, hrest⟩ := SndBuf.makeSerializerStream_allocate n
  obtain rfl := hm (by omega)
  rw [hsize] at hroom
  obtain ⟨o₁, ho₁, h₁⟩ := MemoryOutput.skip_eq (o := makeSerializerStream (SndBuf.allocate m))
    (n := headSpace) (by omega) (by rw [hroom, hrest, List.length_replicate])
  rw [hrest, List.take_replicate, Nat.min_eq_left (by omega)] at h₁
  have hroom₁ : o₁.room = m - headSpace := by rw [h₁.room, hroom, List.length_replicate]
  have hrest₁ : o₁.rest.length = m - headSpace := by
    rw [h₁.rest, hrest, List.length_drop, List.length_replicate, List.length_replicate]
  obtain ⟨o₂, ho₂, h₂⟩ := MemoryOutput.doMarshall_eq ws (o := o₁) (by omega) (by omega)
  have hall := h₁.trans h₂
  refine ⟨{ SndBuf.allocate m with bufs := o₂.bufs }, ?_, ?_, ?_, ?_⟩
  · rw [marshall, hmod, ho₁, ok_bind, ho₂, ok_bind]
  · obtain ⟨f, hf, hlen⟩ := SndBuf.allocate_front m
    have hshape := congrArg List.head? hall.shape
    rw [List.head?_map, List.head?_map, hbufs, hf] at hshape
    obtain ⟨f', hf', hlen'⟩ := Option.map_eq_some_iff.mp hshape
    refine ⟨f', hf', ?_⟩
    rw [List.length_replicate]
    omega
  · rw [SndBuf.bytes, o₂.bytes_bufs, hall.done, hdone, List.nil_append]
    have hend : o₂.rest = [] := by
      apply List.eq_nil_of_length_eq_zero
      rw [h₂.rest, List.length_drop]
      omega
    rw [hend, List.append_nil]
  · show (SndBuf.allocate m).size.toNat = _
    rw [List.length_replicate, hsize, hn]

/-- A message that does not fit is refused. -/
theorem marshall_full {headSpace : Nat} {ws : List Bytes}
    (h : 2 ^ 32 ≤ headSpace + ws.flatten.length) :
    marshall headSpace ws = .error .bufferOverflow := by
  obtain ⟨n, hn⟩ : ∃ n, (measure ws + headSpace) % 2 ^ 64 = n := ⟨_, rfl⟩
  obtain ⟨-, -, hroom, m, hm, -, hrest⟩ := SndBuf.makeSerializerStream_allocate n
  have hlt : (SndBuf.allocate n).size.toNat < 2 ^ 32 := (SndBuf.allocate n).size.toNat_lt
  rw [marshall, hn]
  by_cases hskip : (makeSerializerStream (SndBuf.allocate n)).room < headSpace
  · rw [MemoryOutput.skip_full hskip]
    rfl
  · obtain ⟨o₁, ho₁, h₁⟩ := MemoryOutput.skip_eq (o := makeSerializerStream (SndBuf.allocate n))
      (n := headSpace) (by omega) (by rw [hroom, hrest, List.length_replicate]; exact hm)
    rw [hrest, List.take_replicate, Nat.min_eq_left (by omega)] at h₁
    have hroom₁ := h₁.room
    rw [List.length_replicate] at hroom₁
    rw [ho₁, ok_bind, MemoryOutput.doMarshall_full (by omega)
      (h₁.room_le (by rw [hroom, hrest, List.length_replicate]; exact hm))]
    rfl

/-! ## Headers -/

namespace SndBuf

variable {b : SndBuf} {payload : Bytes}

/-- `front()` is changed in place. -/
theorem onFront_eq {f f' : Bytes} (g : Bytes → Except Fault Bytes)
    (hf : b.bufs.toList.head? = some f) (hg : g f = .ok f') :
    ∃ bufs, b.onFront g = .ok { b with bufs } ∧ bufs.toList.head? = some f' ∧
      bufs.bytes = f' ++ b.bytes.drop f.length := by
  obtain ⟨size, bufs⟩ := b
  cases bufs with
  | one buf =>
    obtain rfl : buf = f := Option.some.inj hf
    refine ⟨.one f', ?_, rfl, ?_⟩
    · simp [onFront, hg]
    · simp [SndBuf.bytes]
  | fragments bufs =>
    cases bufs with
    | nil => cases hf
    | cons buf bufs =>
      obtain rfl : buf = f := Option.some.inj hf
      refine ⟨.fragments (f' :: bufs), ?_, rfl, ?_⟩
      · simp [onFront, hg]
      · simp [SndBuf.bytes]

/-- The first fragment of a buffer is a prefix of its bytes. -/
theorem bytes_of_front {f : Bytes} (hf : b.bufs.toList.head? = some f) :
    b.bytes = f ++ b.bytes.drop f.length := by
  obtain ⟨rest, hrest⟩ := List.head?_eq_some_iff.mp hf
  rw [SndBuf.bytes, Bufs.bytes, hrest, List.flatten_cons, List.drop_left]

/-- With a header in it the first fragment starts with the header. -/
theorem Headed.front_eq {head : Bytes} (h : b.Headed head payload) :
    ∃ tail, b.bufs.toList.head? = some (head ++ tail) ∧
      payload = tail ++ b.bytes.drop (head ++ tail).length := by
  obtain ⟨f, hf, hlen⟩ := h.front
  have hprefix : head <+: f := List.prefix_of_prefix_length_le ⟨payload, h.bytes.symm⟩
    ⟨_, (bytes_of_front hf).symm⟩ hlen
  obtain ⟨tail, rfl⟩ := hprefix
  refine ⟨tail, hf, ?_⟩
  have hbytes := bytes_of_front hf
  rw [h.bytes, List.append_assoc] at hbytes
  rw [h.bytes]
  exact List.append_cancel_left hbytes

/-- The size counts the header and the payload. -/
theorem Headed.size_sub {head : Bytes} (h : b.Headed head payload) {n : UInt32}
    (hn : n.toNat = head.length) : b.size - n = UInt32.ofNat payload.length := by
  have hsize := h.size
  have hlt := b.size.toNat_lt
  apply UInt32.toNat_inj.mp
  rw [UInt32.toNat_sub_of_le _ _ (by rw [UInt32.le_iff_toNat_le]; omega), UInt32.toNat_ofNat',
    Nat.mod_eq_of_lt (by omega)]
  omega

/-- A field of the header is written. -/
theorem Headed.writeFront (pre bs post : Bytes) {old : Bytes}
    (h : b.Headed (pre ++ old ++ post) payload) (hbs : bs.length = old.length) :
    ∃ b', b.writeFront pre.length bs = .ok b' ∧ b'.Headed (pre ++ bs ++ post) payload ∧
      b'.size = b.size := by
  obtain ⟨tail, hfront, hpayload⟩ := h.front_eq
  have hwrite := writeBytes_append pre (old ++ post ++ tail) bs (by
    rw [hbs, List.length_append, List.length_append]
    omega)
  rw [hbs, List.append_assoc old, List.drop_left] at hwrite
  have hsplit : pre ++ old ++ post ++ tail = pre ++ (old ++ (post ++ tail)) := by
    simp only [List.append_assoc]
  rw [hsplit] at hfront
  obtain ⟨bufs, hb, hfront', hbytes⟩ := onFront_eq (fun buf => writeBytes buf pre.length bs) hfront hwrite
  rw [← hsplit] at hbytes
  refine ⟨{ b with bufs }, hb, ⟨⟨_, hfront', ?_⟩, ?_, ?_⟩, rfl⟩
  · simp only [List.length_append]
    omega
  · show bufs.bytes = _
    rw [hbytes]
    conv => rhs; rw [hpayload]
    simp only [List.append_assoc]
  · have hsize := h.size
    simp only [List.length_append] at hsize ⊢
    rw [hbs]
    exact hsize

/-- The front of the header is cut off. -/
theorem Headed.trimFront (pre : Bytes) {post : Bytes} (h : b.Headed (pre ++ post) payload)
    (hpre : pre.length < 2 ^ 32) :
    ∃ b', b.trimFront pre.length = .ok b' ∧ b'.Headed post payload := by
  obtain ⟨tail, hfront, hpayload⟩ := h.front_eq
  have htrim : (if pre.length ≤ (pre ++ post ++ tail).length then
      .ok ((pre ++ post ++ tail).drop pre.length) else .error .readPast) =
        (.ok (post ++ tail) : Except Fault Bytes) := by
    rw [if_pos (by simp only [List.length_append]; omega), List.append_assoc, List.drop_left]
  obtain ⟨bufs, hb, hfront', hbytes⟩ := onFront_eq (fun buf =>
    if pre.length ≤ buf.length then .ok (buf.drop pre.length) else .error .readPast) hfront htrim
  have hsize := h.size
  have hlt := b.size.toNat_lt
  refine ⟨{ b with bufs, size := b.size - UInt32.ofNat pre.length }, ?_, ⟨_, hfront', ?_⟩, ?_, ?_⟩
  · rw [SndBuf.trimFront, hb]
    rfl
  · simp only [List.length_append]
    omega
  · show bufs.bytes = _
    rw [hbytes]
    conv => rhs; rw [hpayload]
    simp only [List.append_assoc]
  · show (b.size - UInt32.ofNat pre.length).toNat = _
    have hn : (UInt32.ofNat pre.length).toNat = pre.length := by
      rw [UInt32.toNat_ofNat', Nat.mod_eq_of_lt hpre]
    rw [List.length_append] at hsize
    rw [UInt32.toNat_sub_of_le _ _ (by rw [UInt32.le_iff_toNat_le, hn]; omega), hn]
    omega

end SndBuf

end Seastar.Rpc
