import Mathlib.Algebra.BigOperators.Group.List.Basic
import Seastar.Core.Queue
import Seastar.Lib.Run
import Seastar.Rpc.Frame

/-!
How a stream of `rpc/rpc.cc` is received: the read loop of the connection puts the buffers of
stream frames into a bounded queue, as far as the memory for them allows, and the source of the
application takes all of them at once. The end of the stream is a buffer in the queue. The
connection stays open.
-/

namespace Seastar.Rpc

open Lib

/-- `max_queued_stream_buffers`. -/
def maxQueuedStreamBuffers : Nat := 50

/-- `max_stream_buffers_memory`. -/
def maxStreamBuffersMemory : Nat := 100 * 1024

/-- A buffer of a stream, with the units of `_stream_sem` in its `su`. -/
structure StreamBuf where
  buf : RcvBuf
  su : Nat := 0
  deriving DecidableEq

/-- Where the read loop is: it reads a frame, or it waits for units or for room in the queue; with
an exception it has ended. -/
inductive ReadLoop
  | readsFrame
  | waitsUnits (buf : RcvBuf)
  | waitsRoom (b : StreamBuf)
  | ended
  deriving DecidableEq

/-- What a read of the source returns: a buffer, an empty optional, or `stream_closed`. -/
inductive SourceRead
  | buffer (buf : RcvBuf)
  | eos
  | closed
  deriving DecidableEq

/-- The receiving side of a connection, its source, and the application. The read loop is the only
one that waits for `_stream_sem`. -/
structure StreamReceiver where
  streamQueue : Queue StreamBuf := { max := maxQueuedStreamBuffers }
  streamSem : Nat := maxStreamBuffersMemory
  loop : ReadLoop := .readsFrame
  sourceClosed : Bool := false
  /-- `_bufs` of the source -/
  bufs : List StreamBuf := []
  /-- a read of the application waits in `stream_receive` -/
  reading : Bool := false
  /-- the units of the buffers that the application has and did not destroy -/
  held : List Nat := []
  /-- history: the buffers of the frames -/
  frames : List RcvBuf := []
  /-- history: what the reads returned -/
  given : List SourceRead := []
  deriving DecidableEq

namespace StreamReceiver

/-- The units for a buffer in `stream_process_incoming`. -/
def unitsFor (buf : RcvBuf) : Nat := min buf.size.toNat maxStreamBuffersMemory

/-- The continuation of `stream_process_incoming` that has the units. -/
def push (buf : RcvBuf) (s : StreamReceiver) : StreamReceiver :=
  let b : StreamBuf := { buf, su := unitsFor buf }
  let s := { s with streamSem := s.streamSem - unitsFor buf }
  match s.streamQueue.pushEventually b with
  | (.done _, streamQueue) => { s with streamQueue, loop := .readsFrame }
  | (.waits, streamQueue) => { s with streamQueue, loop := .waitsRoom b }
  | (.failed, _) => { s with loop := .ended }

/-- `stream_process_incoming`. -/
def streamProcessIncoming (buf : RcvBuf) (s : StreamReceiver) : StreamReceiver :=
  if unitsFor buf ≤ s.streamSem then s.push buf else { s with loop := .waitsUnits buf }

/-- `handle_stream_frame`, with a frame that was read. -/
def handleStreamFrame (buf : RcvBuf) (s : StreamReceiver) : StreamReceiver :=
  { s with frames := s.frames ++ [buf] }.streamProcessIncoming buf

/-- Units come back when a buffer is destroyed. -/
def signal (n : Nat) (s : StreamReceiver) : StreamReceiver :=
  { s with streamSem := s.streamSem + n }

/-- The read loop goes on with the units that it waited for. -/
def unitsGranted (s : StreamReceiver) : StreamReceiver :=
  match s.loop with
  | .waitsUnits buf => s.push buf
  | _ => s

/-- The read loop goes on with the room that it waited for. -/
def roomGranted (s : StreamReceiver) : StreamReceiver :=
  match s.loop with
  | .waitsRoom b =>
    { s with
      streamQueue := { s.streamQueue with notFull := none }.pushAfterWait b
      loop := .readsFrame }
  | _ => s

/-- A read that failed closes the source. -/
def fail (s : StreamReceiver) : StreamReceiver :=
  { s with
    sourceClosed := true
    reading := false
    given := s.given ++ [.closed] }

/-- `process_one_buffer`; without one the read is at the end of the stream, and the source was
closed. -/
def processOneBuffer (s : StreamReceiver) : StreamReceiver :=
  match s.bufs with
  | [] =>
    { s with
      sourceClosed := true
      reading := false
      given := s.given ++ [.eos] }
  | b :: bufs =>
    { s with
      bufs
      reading := false
      held := s.held ++ [b.su]
      given := s.given ++ [.buffer b.buf] }

/-- `operator()` of the source up to where `stream_receive` waits. -/
def read (s : StreamReceiver) : StreamReceiver :=
  if s.bufs ≠ [] then s.processOneBuffer
  else if s.sourceClosed then s.fail
  else
    { s with
      streamQueue := s.streamQueue.waitNotEmpty
      reading := true }

/-- The function that `stream_receive` consumes with. -/
def accepts (b : StreamBuf) : Bool := b.buf.size ≠ eosSize

/-- The continuation of `stream_receive`, and the rest of the read. A buffer that was not accepted
is destroyed by the queue. -/
def readResumes (s : StreamReceiver) : Except Fault StreamReceiver :=
  if s.streamQueue.notEmpty = some .failed then .ok s.fail
  else
    match s.streamQueue.consume accepts with
    | (.done (accepted, running), q) =>
      let refused := s.streamQueue.q[accepted.length]?
      let s := { s with
        streamQueue := { q with notEmpty := none }
        bufs := s.bufs ++ accepted }
      let s := s.signal ((refused.map StreamBuf.su).getD 0)
      if !running && !s.bufs.isEmpty then
        if s.streamQueue.empty then
          let pushed := s.streamQueue.push { buf := { size := eosSize } }
          .ok { s with streamQueue := pushed.2 }.processOneBuffer
        else .error .assertFailed
      else .ok s.processOneBuffer
    | _ => .ok s.fail

/-- What can happen: a frame was read, the read loop goes on, the application reads, its read goes
on, and the application destroys one of its buffers. -/
inductive Action
  | frame (buf : RcvBuf)
  | unitsGranted
  | roomGranted
  | read
  | readResumes
  | release (i : Nat)
  deriving DecidableEq

/-- The future of a promise that was resolved. -/
def Resolved (f : Option Pending) : Prop := f = some .ready ∨ f = some .failed

instance (f : Option Pending) : Decidable (Resolved f) := inferInstanceAs (Decidable (_ ∨ _))

/-- The read loop waits for units that are there. -/
def UnitsThere (s : StreamReceiver) : Prop :=
  match s.loop with
  | .waitsUnits buf => unitsFor buf ≤ s.streamSem
  | _ => False

instance (s : StreamReceiver) : Decidable s.UnitsThere := by
  unfold UnitsThere
  split <;> infer_instance

/-- The read loop waits for room, and was told that there is some. -/
def RoomThere (s : StreamReceiver) : Prop :=
  match s.loop with
  | .waitsRoom _ => Resolved s.streamQueue.notFull
  | _ => False

instance (s : StreamReceiver) : Decidable s.RoomThere := by
  unfold RoomThere
  split <;> infer_instance

/-- What waits goes on when it can, frames are read one after the other, and so are buffers. -/
def Possible (s : StreamReceiver) : Action → Prop
  | .frame _ => s.loop = .readsFrame
  | .unitsGranted => s.UnitsThere
  | .roomGranted => s.RoomThere
  | .read => s.reading = false
  | .readResumes => s.reading = true ∧ Resolved s.streamQueue.notEmpty
  | .release i => i < s.held.length

instance (s : StreamReceiver) (a : Action) : Decidable (s.Possible a) := by
  cases a <;> unfold Possible <;> infer_instance

/-- An action that is possible. -/
def act (s : StreamReceiver) : Action → Except Fault StreamReceiver
  | .frame buf => .ok (s.handleStreamFrame buf)
  | .unitsGranted => .ok s.unitsGranted
  | .roomGranted => .ok s.roomGranted
  | .read => .ok s.read
  | .readResumes => s.readResumes
  | .release i => .ok ({ s with held := s.held.eraseIdx i }.signal (s.held.getD i 0))

/-- One action; one that is not possible changes nothing. -/
def step (s : StreamReceiver) (a : Action) : Except Fault StreamReceiver :=
  if s.Possible a then s.act a else .ok s

/-- The receiver after the actions, oldest first. -/
def run : StreamReceiver → List Action → Except Fault StreamReceiver := Run.run step

/-! ## What is delivered -/

/-- A frame as the application knows it: a buffer, or the end of the stream. -/
def kind (buf : RcvBuf) : Option RcvBuf := if buf.size = eosSize then none else some buf

/-- The frames up to the first end of the stream, and that. -/
def upToEos : List (Option RcvBuf) → List (Option RcvBuf)
  | [] => []
  | none :: _ => [none]
  | some buf :: fs => some buf :: upToEos fs

/-- What a read delivers; a failed one delivers nothing. -/
def SourceRead.kind : SourceRead → Option (Option RcvBuf)
  | .buffer buf => some (some buf)
  | .eos => some none
  | .closed => none

/-- What the application got. -/
def delivered (s : StreamReceiver) : List (Option RcvBuf) := s.given.filterMap SourceRead.kind

/-- What the application should get. -/
def sent (s : StreamReceiver) : List (Option RcvBuf) := upToEos (s.frames.map kind)

/-- The application gets the frames in front of the end of the stream in order, and then that; and
a read that waits while nothing else can go on, and the application holds no buffer, waits for the
next frame. -/
structure Delivers (s : StreamReceiver) : Prop where
  inOrder : s.delivered <+: s.sent
  ended : none ∈ s.delivered → s.delivered = s.sent
  settles : s.reading = true → s.held = [] → ¬ s.Possible .unitsGranted →
    ¬ s.Possible .roomGranted → ¬ s.Possible .readResumes → s.delivered = s.sent

/-- A read that takes the queue does not find an end of the stream between other frames. -/
def Clean (s : StreamReceiver) : Action → Prop
  | .readResumes => s.reading = true → s.streamQueue.q.takeWhile accepts = [] ∨
      s.streamQueue.q.length ≤ (s.streamQueue.q.takeWhile accepts).length + 1
  | _ => True

variable {s t : StreamReceiver} {fs gs : List (Option RcvBuf)}

theorem upToEos_append (h : none ∉ fs) : upToEos (fs ++ gs) = fs ++ upToEos gs := by
  induction fs with
  | nil => rfl
  | cons f fs ih =>
    cases f with
    | none => exact absurd List.mem_cons_self h
    | some buf =>
      rw [List.cons_append, upToEos, ih fun hc => h (List.mem_cons_of_mem _ hc)]
      rfl

/-- What comes behind the end of the stream does not matter. -/
theorem upToEos_of_eos (h : none ∈ fs) : upToEos (fs ++ gs) = upToEos fs := by
  induction fs with
  | nil => cases h
  | cons f fs ih =>
    cases f with
    | none => rfl
    | some buf =>
      rw [List.cons_append, upToEos, upToEos, ih]
      simpa using h

theorem mem_of_mem_upToEos {f : Option RcvBuf} (h : f ∈ upToEos fs) : f ∈ fs := by
  induction fs with
  | nil => exact h
  | cons g fs ih =>
    cases g with
    | none =>
      obtain rfl := List.mem_singleton.mp h
      exact List.mem_cons_self
    | some buf =>
      obtain rfl | h := List.mem_cons.mp h
      · exact List.mem_cons_self
      · exact List.mem_cons_of_mem _ (ih h)

/-! ## The invariant -/

/-- The buffers and the units that the read loop has. -/
def loopBufs : ReadLoop → List RcvBuf
  | .waitsUnits buf => [buf]
  | .waitsRoom b => [b.buf]
  | _ => []

def loopUnits : ReadLoop → Nat
  | .waitsRoom b => b.su
  | _ => 0

/-- The buffers between the frames and the application. -/
def pipeline (s : StreamReceiver) : List (Option RcvBuf) :=
  (s.bufs.map StreamBuf.buf ++ (s.streamQueue.q.map StreamBuf.buf ++ loopBufs s.loop)).map kind

/-- The units of some buffers. -/
def unitsOf (bs : List StreamBuf) : Nat := (bs.map StreamBuf.su).sum

/-- All units there are. -/
def allUnits (s : StreamReceiver) : Nat :=
  s.streamSem + (unitsOf s.bufs + (unitsOf s.streamQueue.q + (s.held.sum + loopUnits s.loop)))

/-- The futures of the queue are those of the one reader and the one writer. -/
structure Waits (s : StreamReceiver) : Prop where
  ex : s.streamQueue.ex = false
  max : s.streamQueue.max = maxQueuedStreamBuffers
  goesOn : s.loop ≠ .ended
  room : ∀ b, s.loop = .waitsRoom b → s.streamQueue.notFull = some .ready ∨
    s.streamQueue.notFull = some .unresolved ∧ s.streamQueue.full = true
  reads : s.reading = true → s.bufs = [] ∧ s.sourceClosed = false ∧
    (s.streamQueue.notEmpty = some .ready ∧ s.streamQueue.q ≠ [] ∨
      s.streamQueue.notEmpty = some .unresolved ∧ s.streamQueue.q = [])
  idle : s.reading = false → s.streamQueue.notEmpty = none

/-- Nothing is lost: as long as the source is open, what was not delivered is on its way. -/
structure Keeps (s : StreamReceiver) : Prop where
  opened : s.sourceClosed = false → none ∉ s.delivered ∧
    s.delivered ++ s.pipeline = s.frames.map kind
  finished : s.sourceClosed = true → s.bufs = [] ∧ none ∈ s.delivered ∧ s.delivered = s.sent
  data : ∀ b ∈ s.bufs, accepts b = true

/-- The invariant. -/
structure Inv (s : StreamReceiver) : Prop where
  waits : Waits s
  keeps : Keeps s
  units : s.allUnits = maxStreamBuffersMemory

theorem init_inv : Inv {} := by
  refine ⟨⟨rfl, rfl, ?_, ?_, ?_, fun _ => rfl⟩, ⟨fun _ => ⟨?_, rfl⟩, ?_, ?_⟩, rfl⟩
  · intro h
    cases h
  · intro b h
    cases h
  · intro h
    cases h
  · exact List.not_mem_nil
  · intro h
    cases h
  · intro b hb
    cases hb

/-- What the invariant says of the application. -/
theorem Inv.delivers (h : Inv s) : Delivers s := by
  cases hclosed : s.sourceClosed with
  | true =>
    obtain ⟨-, hmem, heq⟩ := h.keeps.finished hclosed
    refine ⟨heq ▸ List.prefix_rfl, fun _ => heq, fun hreading => ?_⟩
    obtain ⟨-, hopen, -⟩ := h.waits.reads hreading
    rw [hclosed] at hopen
    cases hopen
  | false =>
    obtain ⟨hnone, hall⟩ := h.keeps.opened hclosed
    have hsent : s.sent = s.delivered ++ upToEos s.pipeline := by
      rw [sent, ← hall, upToEos_append hnone]
    refine ⟨hsent ▸ List.prefix_append _ _, fun hmem => absurd hmem hnone, ?_⟩
    intro hreading hheld hunits hroom hresumes
    obtain ⟨hbufs, -, ⟨hready, -⟩ | ⟨-, hq⟩⟩ := h.waits.reads hreading
    · exact absurd ⟨hreading, Or.inl hready⟩ hresumes
    · have hloop : loopBufs s.loop = [] := by
        cases hl : s.loop with
        | readsFrame => rfl
        | ended => rfl
        | waitsUnits buf =>
          exfalso
          apply hunits
          have hmax := h.units
          rw [allUnits, hbufs, hq, hheld, hl] at hmax
          show s.UnitsThere
          rw [UnitsThere, hl]
          have hle : unitsFor buf ≤ maxStreamBuffersMemory := Nat.min_le_right _ _
          simp [unitsOf, loopUnits] at hmax
          omega
        | waitsRoom b =>
          exfalso
          obtain hready | ⟨-, hfull⟩ := h.waits.room b hl
          · apply hroom
            show s.RoomThere
            rw [RoomThere, hl]
            exact Or.inl hready
          · rw [Queue.full, h.waits.max, hq] at hfull
            exact absurd hfull (by decide)
      have hpipe : s.pipeline = [] := by
        rw [pipeline, hbufs, hq, hloop]
        rfl
      rw [hsent, hpipe]
      exact (List.append_nil _).symm

/-! ## The read loop -/

theorem Keeps.congr (h : Keeps s) (hgiven : t.given = s.given) (hframes : t.frames = s.frames)
    (hclosed : t.sourceClosed = s.sourceClosed) (hbufs : t.bufs = s.bufs)
    (hpipe : t.pipeline = s.pipeline) : Keeps t := by
  have hdelivered : t.delivered = s.delivered := by rw [delivered, delivered, hgiven]
  have hsent : t.sent = s.sent := by rw [sent, sent, hframes]
  constructor
  · rw [hclosed, hdelivered, hpipe, hframes]
    exact h.opened
  · rw [hclosed, hdelivered, hbufs, hsent]
    exact h.finished
  · rw [hbufs]
    exact h.data

/-- A buffer is put into the queue; a read that waits for one is told. -/
theorem Inv.pushAfterWait (h : Inv s) {b : StreamBuf} {sem : Nat} (f : Option Pending)
    (hloop : loopBufs s.loop = [b.buf]) (hsem : s.streamSem + loopUnits s.loop = sem + b.su) :
    Inv { s with
      streamSem := sem
      streamQueue := { s.streamQueue with notFull := f }.pushAfterWait b
      loop := .readsFrame } := by
  refine ⟨⟨h.waits.ex, h.waits.max, ?_, ?_, fun hr => ?_, fun hr => ?_⟩, ?_, ?_⟩
  · intro hc
    cases hc
  · intro c hc
    cases hc
  · obtain ⟨hbufs, hopen, hempty⟩ := h.waits.reads hr
    refine ⟨hbufs, hopen, Or.inl ⟨?_, List.append_ne_nil_of_right_ne_nil _ (by simp)⟩⟩
    show s.streamQueue.notEmpty.map Pending.setValue = some .ready
    obtain ⟨hready, -⟩ | ⟨hunresolved, -⟩ := hempty
    · rw [hready]
      rfl
    · rw [hunresolved]
      rfl
  · show s.streamQueue.notEmpty.map Pending.setValue = none
    rw [h.waits.idle hr]
    rfl
  · refine h.keeps.congr rfl rfl rfl rfl ?_
    rw [pipeline, pipeline, hloop]
    simp [Queue.pushAfterWait, Queue.notifyNotEmpty, loopBufs]
  · have hunits := h.units
    have hsnoc : unitsOf (s.streamQueue.q ++ [b]) = unitsOf s.streamQueue.q + b.su := by
      simp [unitsOf]
    show sem + (unitsOf s.bufs + (unitsOf (s.streamQueue.q ++ [b]) + (s.held.sum + 0))) = _
    rw [allUnits] at hunits
    omega

theorem Inv.push (h : Inv s) {buf : RcvBuf} (hloop : s.loop = .waitsUnits buf)
    (hle : unitsFor buf ≤ s.streamSem) : Inv (s.push buf) := by
  unfold StreamReceiver.push Queue.pushEventually
  dsimp only
  rw [h.waits.ex, if_neg Bool.false_ne_true]
  cases hfull : s.streamQueue.full with
  | true =>
    rw [if_pos rfl, Queue.waitNotFull, h.waits.ex, if_neg Bool.false_ne_true, hfull, if_pos rfl]
    dsimp only
    refine ⟨⟨rfl, h.waits.max, ?_, fun _ _ => Or.inr ⟨rfl, hfull⟩, h.waits.reads,
      h.waits.idle⟩, h.keeps.congr rfl rfl rfl rfl ?_, ?_⟩
    · intro hc
      cases hc
    · rw [pipeline, pipeline, hloop]
      rfl
    · have hunits := h.units
      rw [allUnits, hloop] at hunits
      rw [allUnits]
      simp only [loopUnits] at hunits ⊢
      omega
  | false =>
    rw [if_neg Bool.false_ne_true]
    have hsem : s.streamSem + loopUnits s.loop = s.streamSem - unitsFor buf + unitsFor buf := by
      rw [hloop]
      exact (Nat.sub_add_cancel hle).symm
    have hbufs : loopBufs s.loop = [buf] := by
      rw [hloop]
      rfl
    exact h.pushAfterWait (b := ⟨buf, unitsFor buf⟩) s.streamQueue.notFull hbufs hsem

theorem Inv.unitsGranted (h : Inv s) (hp : s.UnitsThere) : Inv s.unitsGranted := by
  unfold StreamReceiver.unitsGranted
  unfold UnitsThere at hp
  cases hl : s.loop with
  | waitsUnits buf =>
    rw [hl] at hp
    exact h.push hl hp
  | readsFrame => exact h
  | waitsRoom b => exact h
  | ended => exact h

theorem Inv.roomGranted (h : Inv s) : Inv s.roomGranted := by
  unfold StreamReceiver.roomGranted
  cases hl : s.loop with
  | waitsRoom b =>
    exact h.pushAfterWait none (by rw [hl]; rfl) (by rw [hl]; rfl)
  | readsFrame => exact h
  | waitsUnits buf => exact h
  | ended => exact h

/-- A frame has been read, and waits for its units. -/
theorem Inv.frameRead (h : Inv s) (buf : RcvBuf) (hl : s.loop = .readsFrame) :
    Inv { s with
      frames := s.frames ++ [buf]
      loop := .waitsUnits buf } := by
  refine ⟨⟨h.waits.ex, h.waits.max, ?_, ?_, h.waits.reads, h.waits.idle⟩,
    ⟨fun hopen => ?_, fun hclosed => ?_, h.keeps.data⟩, ?_⟩
  · intro hc
    cases hc
  · intro c hc
    cases hc
  · obtain ⟨hnone, hall⟩ := h.keeps.opened hopen
    refine ⟨hnone, ?_⟩
    rw [pipeline, hl] at hall
    show s.delivered ++ _ = (s.frames ++ [buf]).map kind
    rw [List.map_append, ← hall]
    simp [pipeline, loopBufs]
  · obtain ⟨hbufs, hmem, hall⟩ := h.keeps.finished hclosed
    refine ⟨hbufs, hmem, ?_⟩
    show s.delivered = upToEos ((s.frames ++ [buf]).map kind)
    rw [List.map_append, upToEos_of_eos]
    · exact hall
    · apply mem_of_mem_upToEos
      show none ∈ s.sent
      rw [← hall]
      exact hmem
  · have hunits := h.units
    rw [allUnits, hl] at hunits
    exact hunits

theorem Inv.frame (h : Inv s) (buf : RcvBuf) (hl : s.loop = .readsFrame) :
    Inv (s.handleStreamFrame buf) := by
  have hread := h.frameRead buf hl
  unfold handleStreamFrame streamProcessIncoming
  split
  · rename_i hle
    have hpush := hread.push rfl hle
    have heq : ({ s with frames := s.frames ++ [buf] } : StreamReceiver).push buf =
        ({ s with
          frames := s.frames ++ [buf]
          loop := .waitsUnits buf } : StreamReceiver).push buf := rfl
    rw [heq]
    exact hpush
  · exact hread

/-! ## The reads -/

theorem kind_of_accepts {b : StreamBuf} (h : accepts b = true) : kind b.buf = some b.buf := by
  rw [kind, if_neg (by simpa [accepts] using h)]

theorem kind_of_refused {b : StreamBuf} (h : accepts b = false) : kind b.buf = none := by
  rw [kind, if_pos (by simpa [accepts] using h)]

/-- The first buffer of the source is delivered. -/
theorem Inv.processOneBuffer (h : Inv { s with reading := false }) (hne : s.bufs ≠ []) :
    Inv s.processOneBuffer := by
  unfold StreamReceiver.processOneBuffer
  cases hb : s.bufs with
  | nil => exact absurd hb hne
  | cons b bufs =>
    dsimp only
    have hdata : ∀ c ∈ b :: bufs, accepts c = true := hb ▸ h.keeps.data
    have hopen : s.sourceClosed = false := by
      cases hc : s.sourceClosed with
      | false => rfl
      | true => exact absurd (h.keeps.finished hc).1 hne
    obtain ⟨hnone, hall⟩ := h.keeps.opened hopen
    have hdelivered : ∀ g : List SourceRead, (g ++ [SourceRead.buffer b.buf]).filterMap SourceRead.kind =
        g.filterMap SourceRead.kind ++ [some b.buf] := by
      intro g
      rw [List.filterMap_append]
      rfl
    refine ⟨⟨h.waits.ex, h.waits.max, h.waits.goesOn, h.waits.room, ?_, fun _ => h.waits.idle rfl⟩,
      ⟨fun _ => ⟨?_, ?_⟩, fun hclosed => ?_, ?_⟩, ?_⟩
    · intro hc
      cases hc
    · show none ∉ List.filterMap _ _
      rw [hdelivered]
      intro hmem
      obtain hmem | hmem := List.mem_append.mp hmem
      · exact hnone hmem
      · simp at hmem
    · show List.filterMap _ _ ++ _ = _
      rw [hdelivered, ← hall]
      simp [pipeline, hb, delivered, kind_of_accepts (hdata b List.mem_cons_self)]
    · rw [hopen] at hclosed
      cases hclosed
    · exact fun c hc => hdata c (List.mem_cons_of_mem _ hc)
    · have hunits := h.units
      rw [allUnits] at hunits ⊢
      simp only [hb, unitsOf, List.map_cons, List.sum_cons, List.sum_append, List.sum_nil] at hunits ⊢
      omega

theorem Inv.read (h : Inv s) (hidle : s.reading = false) : Inv s.read := by
  have hsame : ({ s with reading := false } : StreamReceiver) = s := by rw [← hidle]
  unfold StreamReceiver.read
  split
  · rename_i hne
    exact Inv.processOneBuffer (hsame.symm ▸ h) hne
  · rename_i hbufs
    split
    · rename_i hclosed
      obtain ⟨hnil, hmem, hall⟩ := h.keeps.finished hclosed
      have hdelivered : s.fail.delivered = s.delivered := by
        show (s.given ++ [SourceRead.closed]).filterMap SourceRead.kind = _
        rw [List.filterMap_append]
        exact List.append_nil _
      refine ⟨⟨h.waits.ex, h.waits.max, h.waits.goesOn, h.waits.room, ?_, fun _ => h.waits.idle hidle⟩,
        ⟨?_, fun _ => ⟨hnil, hdelivered ▸ hmem, hdelivered ▸ hall⟩, h.keeps.data⟩, h.units⟩
      · intro hc
        cases hc
      · intro hc
        cases hc
    · rename_i hopen
      have hq : s.streamQueue.waitNotEmpty = { s.streamQueue with
          notEmpty := some (if s.streamQueue.empty then .unresolved else .ready) } := by
        rw [Queue.waitNotEmpty, if_neg (by simp [h.waits.ex])]
        split <;> rfl
      rw [hq]
      refine ⟨⟨h.waits.ex, h.waits.max, h.waits.goesOn, h.waits.room, fun _ => ?_, ?_⟩,
        h.keeps.congr rfl rfl rfl rfl rfl, h.units⟩
      · refine ⟨not_not.mp hbufs, Bool.not_eq_true _ |>.mp hopen, ?_⟩
        cases hempty : s.streamQueue.empty with
        | true => exact Or.inr ⟨rfl, by simpa [Queue.empty] using hempty⟩
        | false => exact Or.inl ⟨rfl, by simpa [Queue.empty] using hempty⟩
      · intro hc
        cases hc

/-- What `consume` leaves of the queue; the writer is told unless the queue is still full. -/
theorem consume_eq {q : Queue StreamBuf} (hex : q.ex = false) {accepted rest : List StreamBuf}
    {running : Bool} (hloop : Queue.consumeLoop accepts q.q = (accepted, rest, running)) :
    ∃ f, q.consume accepts = (.done (accepted, running), { q with
        q := rest
        notFull := f }) ∧
      (f = q.notFull ∧ q.max ≤ rest.length ∨ f = q.notFull.map Pending.setValue) := by
  rw [Queue.consume, if_neg (by simp [hex]), hloop]
  dsimp only
  by_cases hfull : q.max ≤ rest.length
  · refine ⟨q.notFull, ?_, Or.inl ⟨rfl, hfull⟩⟩
    rw [if_pos (by simpa [Queue.full] using hfull)]
  · refine ⟨q.notFull.map Pending.setValue, ?_, Or.inr rfl⟩
    rw [if_neg (by simpa [Queue.full] using hfull)]
    rfl

/-- The state in which a read has taken what it may from the queue. -/
def taken (s : StreamReceiver) (f : Option Pending) (accepted rest : List StreamBuf) (n : Nat) :
    StreamReceiver :=
  { s with
    streamQueue := { s.streamQueue with
      q := rest
      notFull := f
      notEmpty := none }
    streamSem := s.streamSem + n
    bufs := accepted
    reading := false }

/-- The waiting of the read loop is still in order when the queue is shorter. -/
theorem Inv.taken_waits (h : Inv s) {f : Option Pending} {accepted rest : List StreamBuf} {n : Nat}
    (hf : f = s.streamQueue.notFull ∧ s.streamQueue.max ≤ rest.length ∨
      f = s.streamQueue.notFull.map Pending.setValue) : Waits (s.taken f accepted rest n) := by
  refine ⟨h.waits.ex, h.waits.max, h.waits.goesOn, fun b hb => ?_, ?_, fun _ => rfl⟩
  · show f = some .ready ∨ f = some .unresolved ∧ Queue.full _ = true
    obtain ⟨rfl, hle⟩ | rfl := hf
    · obtain hready | ⟨hunresolved, -⟩ := h.waits.room b hb
      · exact Or.inl hready
      · exact Or.inr ⟨hunresolved, decide_eq_true hle⟩
    · left
      obtain hready | ⟨hunresolved, -⟩ := h.waits.room b hb
      · rw [hready]
        rfl
      · rw [hunresolved]
        rfl
  · intro hc
    cases hc

/-- A read finds data only. -/
theorem Inv.taken_all (h : Inv s) (hr : s.reading = true) {f : Option Pending}
    (hf : f = s.streamQueue.notFull ∧ s.streamQueue.max ≤ 0 ∨
      f = s.streamQueue.notFull.map Pending.setValue)
    (hall : ∀ b ∈ s.streamQueue.q, accepts b = true) :
    Inv (s.taken f s.streamQueue.q [] 0) := by
  obtain ⟨hbufs, hopen, -⟩ := h.waits.reads hr
  obtain ⟨hnone, hkeeps⟩ := h.keeps.opened hopen
  refine ⟨h.taken_waits hf, ⟨fun _ => ⟨hnone, ?_⟩, fun hclosed => ?_, hall⟩, ?_⟩
  · show s.delivered ++ _ = s.frames.map kind
    rw [← hkeeps, pipeline, pipeline, hbufs]
    rfl
  · rw [show s.sourceClosed = true from hclosed] at hopen
    cases hopen
  · have hunits := h.units
    rw [allUnits, hbufs] at hunits
    rw [allUnits]
    simp only [taken, unitsOf, List.map_nil, List.sum_nil] at hunits ⊢
    omega

/-- A read finds data and an end of the stream behind it, and puts the end back. -/
theorem Inv.taken_marker (h : Inv s) (hr : s.reading = true) {f : Option Pending}
    {accepted : List StreamBuf} {a : StreamBuf} (hq : s.streamQueue.q = accepted ++ [a])
    (hf : f = s.streamQueue.notFull ∧ s.streamQueue.max ≤ 0 ∨
      f = s.streamQueue.notFull.map Pending.setValue)
    (hall : ∀ b ∈ accepted, accepts b = true) (ha : accepts a = false) :
    Inv (s.taken f accepted [{ buf := { size := eosSize } }] a.su) := by
  obtain ⟨hbufs, hopen, -⟩ := h.waits.reads hr
  obtain ⟨hnone, hkeeps⟩ := h.keeps.opened hopen
  have hf' : f = s.streamQueue.notFull.map Pending.setValue := by
    obtain ⟨-, hle⟩ | hf := hf
    · rw [h.waits.max] at hle
      exact absurd hle (by decide)
    · exact hf
  refine ⟨h.taken_waits (Or.inr hf'), ⟨fun _ => ⟨hnone, ?_⟩, fun hclosed => ?_, hall⟩, ?_⟩
  · show s.delivered ++ _ = s.frames.map kind
    have hmarker : kind { size := eosSize } = none := if_pos rfl
    rw [← hkeeps, pipeline, pipeline, hbufs, hq]
    simp [taken, kind_of_refused ha, hmarker]
  · rw [show s.sourceClosed = true from hclosed] at hopen
    cases hopen
  · have hunits := h.units
    rw [allUnits, hbufs, hq] at hunits
    rw [allUnits]
    simp only [taken, unitsOf, List.map_nil, List.sum_nil, List.map_append, List.sum_append,
      List.map_cons, List.sum_cons] at hunits ⊢
    omega

/-- A read finds the end of the stream at once. -/
theorem Inv.taken_eos (h : Inv s) (hr : s.reading = true) {f : Option Pending}
    {rest : List StreamBuf} {a : StreamBuf} (hq : s.streamQueue.q = a :: rest)
    (hf : f = s.streamQueue.notFull ∧ s.streamQueue.max ≤ rest.length ∨
      f = s.streamQueue.notFull.map Pending.setValue) (ha : accepts a = false) :
    Inv (s.taken f [] rest a.su).processOneBuffer := by
  obtain ⟨hbufs, hopen, -⟩ := h.waits.reads hr
  obtain ⟨hnone, hkeeps⟩ := h.keeps.opened hopen
  have hdelivered : (s.taken f [] rest a.su).processOneBuffer.delivered = s.delivered ++ [none] := by
    show (s.given ++ [SourceRead.eos]).filterMap SourceRead.kind = _
    rw [List.filterMap_append]
    rfl
  have hwaits : Waits (s.taken f [] rest a.su) := h.taken_waits hf
  refine ⟨⟨hwaits.ex, hwaits.max, hwaits.goesOn, hwaits.room, ?_, fun _ => rfl⟩,
    ⟨?_, fun _ => ⟨rfl, ?_, ?_⟩, ?_⟩, ?_⟩
  · intro hc
    cases hc
  · intro hc
    cases hc
  · rw [hdelivered]
    simp
  · show _ = upToEos (s.frames.map kind)
    rw [hdelivered, ← hkeeps, pipeline, hbufs, hq, upToEos_append hnone]
    simp [kind_of_refused ha, upToEos]
  · intro b hb
    cases hb
  · have hunits := h.units
    rw [allUnits, hbufs, hq] at hunits
    rw [allUnits]
    simp only [taken, StreamReceiver.processOneBuffer, unitsOf, List.map_nil, List.sum_nil,
      List.map_cons, List.sum_cons] at hunits ⊢
    omega

/-- The source does not look at whether a read waits. -/
theorem processOneBuffer_reading (s : StreamReceiver) (r : Bool) :
    ({ s with reading := r } : StreamReceiver).processOneBuffer = s.processOneBuffer := by
  unfold StreamReceiver.processOneBuffer
  cases s.bufs <;> rfl

/-- What a read that goes on does with what it takes. -/
theorem readResumes_eq (hbufs : s.bufs = []) (hready : s.streamQueue.notEmpty = some .ready)
    {accepted rest : List StreamBuf} {running : Bool} {f : Option Pending} {n : Nat}
    (hconsume : s.streamQueue.consume accepts = (.done (accepted, running), { s.streamQueue with
      q := rest
      notFull := f }))
    (hn : ((s.streamQueue.q[accepted.length]?).map StreamBuf.su).getD 0 = n) :
    s.readResumes = if running = false ∧ accepted ≠ [] then
        if rest = [] then
          .ok { s.taken f accepted rest n with
            streamQueue := ((s.taken f accepted rest n).streamQueue.push
              { buf := { size := eosSize } }).2 }.processOneBuffer
        else .error .assertFailed
      else .ok (s.taken f accepted rest n).processOneBuffer := by
  unfold StreamReceiver.readResumes
  rw [if_neg (by simp [hready]), hconsume]
  dsimp only
  rw [hbufs, hn, List.nil_append]
  cases running with
  | true => exact congrArg Except.ok (processOneBuffer_reading (s.taken f accepted rest n) _)
  | false =>
    cases accepted with
    | nil => exact congrArg Except.ok (processOneBuffer_reading (s.taken f [] rest n) _)
    | cons b accepted =>
      rw [if_pos (c := false = false ∧ b :: accepted ≠ []) ⟨rfl, List.cons_ne_nil _ _⟩]
      cases rest with
      | nil =>
        rw [if_pos (c := ([] : List StreamBuf) = []) rfl]
        exact congrArg Except.ok (processOneBuffer_reading { s.taken f (b :: accepted) [] n with
          streamQueue := ((s.taken f (b :: accepted) [] n).streamQueue.push
            { buf := { size := eosSize } }).2 } _)
      | cons c rest =>
        rw [if_neg (c := c :: rest = []) (List.cons_ne_nil _ _)]
        rfl

/-- A read goes on: it takes what is there, and fails only when frames are behind an end of the
stream that has data in front of it. -/
theorem Inv.readResumes (h : Inv s) (hr : s.reading = true)
    (hready : s.streamQueue.notEmpty = some .ready) (hne : s.streamQueue.q ≠ []) :
    s.Clean .readResumes ∧ (∃ t, s.readResumes = .ok t ∧ Inv t) ∨
      ¬ s.Clean .readResumes ∧ s.readResumes = .error .assertFailed := by
  obtain ⟨hbufs, hopen, -⟩ := h.waits.reads hr
  obtain ⟨hall, hloop⟩ | ⟨accepted, a, rest, hq, hall, ha, hloop⟩ :=
    Queue.consumeLoop_cases accepts s.streamQueue.q
  · obtain ⟨f, hconsume, hf⟩ := consume_eq h.waits.ex hloop
    have htaken : (s.taken f s.streamQueue.q [] 0).bufs ≠ [] := hne
    refine Or.inl ⟨fun _ => Or.inr ?_, _, ?_, (h.taken_all hr hf hall).processOneBuffer htaken⟩
    · rw [List.takeWhile_eq_self_iff.mpr hall]
      exact Nat.le_succ _
    · rw [readResumes_eq hbufs hready hconsume (n := 0) (by simp), if_neg (by simp)]
  · obtain ⟨f, hconsume, hf⟩ := consume_eq h.waits.ex hloop
    have hsu : ((s.streamQueue.q[accepted.length]?).map StreamBuf.su).getD 0 = a.su := by
      rw [hq, List.getElem?_append_right (Nat.le_refl _), Nat.sub_self]
      rfl
    have hwhile : s.streamQueue.q.takeWhile accepts = accepted := by
      rw [hq, List.takeWhile_append_of_pos hall, List.takeWhile_cons_of_neg (by simp [ha]),
        List.append_nil]
    have heq := readResumes_eq hbufs hready hconsume hsu
    by_cases hacc : accepted = []
    · subst hacc
      rw [if_neg (by simp)] at heq
      exact Or.inl ⟨fun _ => Or.inl hwhile, _, heq, h.taken_eos hr hq hf ha⟩
    · rw [if_pos ⟨rfl, hacc⟩] at heq
      cases rest with
      | nil =>
        rw [if_pos rfl] at heq
        refine Or.inl ⟨fun _ => Or.inr ?_, _, heq, ?_⟩
        · rw [hwhile, hq, List.length_append]
          exact Nat.le_refl _
        · have hpush : (s.taken f accepted [] a.su).streamQueue.push
              { buf := { size := eosSize } } = (true, (s.taken f accepted
                [{ buf := { size := eosSize } }] a.su).streamQueue) := by
            rw [Queue.push, if_pos]
            · rfl
            · show 0 < s.streamQueue.max
              rw [h.waits.max]
              decide
          rw [hpush]
          exact (h.taken_marker hr hq hf hall ha).processOneBuffer hacc
      | cons c rest =>
        rw [if_neg (List.cons_ne_nil _ _)] at heq
        refine Or.inr ⟨fun hclean => ?_, heq⟩
        obtain hnil | hle := hclean hr
        · exact hacc (hwhile.symm.trans hnil)
        · rw [hwhile, hq, List.length_append, List.length_cons, List.length_cons] at hle
          omega

/-! ## Steps and runs -/

theorem Inv.release (h : Inv s) {i : Nat} (hi : i < s.held.length) :
    Inv ({ s with held := s.held.eraseIdx i }.signal (s.held.getD i 0)) := by
  refine ⟨⟨h.waits.ex, h.waits.max, h.waits.goesOn, h.waits.room, h.waits.reads, h.waits.idle⟩,
    h.keeps.congr rfl rfl rfl rfl rfl, ?_⟩
  have hunits := h.units
  have hsum := List.CommMonoid.add_sum_eraseIdx hi
  have hget : s.held.getD i 0 = s.held[i] := by simp [hi]
  rw [allUnits] at hunits ⊢
  simp only [signal, hget] at hunits ⊢
  omega

/-- An action keeps the invariant, or it is a read that does not find the queue clean, which fails. -/
theorem Inv.step (h : Inv s) (a : Action) :
    s.Clean a ∧ (∃ t, s.step a = .ok t ∧ Inv t) ∨ ¬ s.Clean a ∧ s.step a = .error .assertFailed := by
  unfold StreamReceiver.step
  by_cases hp : s.Possible a
  · rw [if_pos hp]
    cases a with
    | frame buf => exact Or.inl ⟨trivial, _, rfl, h.frame buf hp⟩
    | unitsGranted => exact Or.inl ⟨trivial, _, rfl, h.unitsGranted hp⟩
    | roomGranted => exact Or.inl ⟨trivial, _, rfl, h.roomGranted⟩
    | read => exact Or.inl ⟨trivial, _, rfl, h.read hp⟩
    | release i => exact Or.inl ⟨trivial, _, rfl, h.release hp⟩
    | readResumes =>
      obtain ⟨hr, hresolved⟩ := hp
      obtain ⟨-, -, ⟨hready, hne⟩ | ⟨hunresolved, -⟩⟩ := h.waits.reads hr
      · exact h.readResumes hr hready hne
      · rw [hunresolved] at hresolved
        obtain hc | hc := hresolved
        · cases hc
        · cases hc
  · rw [if_neg hp]
    refine Or.inl ⟨?_, s, rfl, h⟩
    cases a with
    | readResumes =>
      intro hr
      obtain ⟨-, -, ⟨hready, -⟩ | ⟨-, hnil⟩⟩ := h.waits.reads hr
      · exact absurd ⟨hr, Or.inl hready⟩ hp
      · rw [hnil]
        exact Or.inl rfl
    | _ => trivial

/-- In a run no assertion fails, and the application gets what it should all the time, exactly when
no read finds the end of the stream with data in front of it and a frame behind it. -/
theorem run_delivers_iff (as : List Action) :
    (∃ t, run {} as = .ok t ∧ Run.Throughout step Delivers {} as) ↔ Run.Along step Clean {} as := by
  constructor
  · rintro ⟨t, ht, -⟩
    refine (Run.along_of_ok ht).of_inv (I := Inv) ?_ ?_ init_inv
    · rintro s a u hs - hu
      obtain ⟨-, v, hv, hinv⟩ | ⟨-, herror⟩ := hs.step a
      · obtain rfl := Except.ok.inj (hu.symm.trans hv)
        exact hinv
      · rw [herror] at hu
        cases hu
    · rintro s a hs ⟨u, hu⟩
      obtain ⟨hclean, -⟩ | ⟨-, herror⟩ := hs.step a
      · exact hclean
      · rw [herror] at hu
        cases hu
  · intro hclean
    have hstep : ∀ s a, Inv s → s.Clean a → ∃ u, s.step a = .ok u ∧ Inv u := by
      intro s a hs ha
      obtain ⟨-, hok⟩ | ⟨hnot, -⟩ := hs.step a
      · exact hok
      · exact absurd ha hnot
    obtain ⟨t, ht, -⟩ := Run.run_ok hstep init_inv hclean
    refine ⟨t, ht, Run.Throughout.of_along (I := Inv) ?_ (fun _ => Inv.delivers) init_inv hclean⟩
    intro s a u hs ha hu
    obtain ⟨v, hv, hinv⟩ := hstep s a hs ha
    obtain rfl := Except.ok.inj (hu.symm.trans hv)
    exact hinv

/-- A frame without bytes, the end of the stream and another frame without bytes reach the queue
before the application reads. -/
theorem run_misses : ¬ ∃ t, run {} [.frame {}, .frame { size := eosSize }, .frame {}, .read,
    .readResumes] = .ok t ∧ Run.Throughout step Delivers {} [.frame {}, .frame { size := eosSize },
    .frame {}, .read, .readResumes] := by
  rintro ⟨t, ht, -⟩
  have hfails : run {} [.frame {}, .frame { size := eosSize }, .frame {}, .read, .readResumes] =
      .error .assertFailed := by decide
  rw [hfails] at ht
  cases ht

end StreamReceiver

end Seastar.Rpc
