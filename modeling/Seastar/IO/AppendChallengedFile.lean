import Mathlib
import Seastar.Core.Fault
import Seastar.Lib.Counting
import Seastar.Lib.Run

/-!
`append_challenged_posix_file_impl` of `core/reactor.cc`, as a state machine. An
operation that changes the size of the file runs alone: it is held back in a
queue until no other runs, and holds back those behind it. When there is nothing
running, the file may be extended at once for all the appending writes of the
queue.

`process_queue` may be entered again from inside its own loop, when an operation
ends as it is started; so the state has the number of its activations, and each
round of its loop is an action.
-/

namespace Seastar

open Lib

/-- `append_challenged_posix_file_impl::opcode`. -/
inductive AppendChallengedFile.Opcode
  | read
  | write
  | truncate
  | flush
  deriving DecidableEq, Repr

/-- `append_challenged_posix_file_impl::op`, with the number of the enqueue. -/
structure AppendChallengedFile.FileOp where
  type : AppendChallengedFile.Opcode
  pos : UInt64
  len : UInt64
  number : Nat
  deriving DecidableEq, Repr

/-- An operation that was started, with the counter it is counted in. -/
structure AppendChallengedFile.Running where
  op : AppendChallengedFile.FileOp
  sizeChanging : Bool
  deriving DecidableEq, Repr

/-- `class append_challenged_posix_file_impl`. -/
structure AppendChallengedFile where
  maxSizeChangingOps : Nat
  fsyncIsExclusive : Bool
  sloppySize : Bool
  diskReadDmaAlignment : UInt64
  diskWriteDmaAlignment : UInt64
  committedSize : UInt64
  logicalSize : UInt64
  q : List AppendChallengedFile.FileOp := []
  currentNonSizeChangingOps : UInt32 := 0
  currentSizeChangingOps : UInt32 := 0
  done : Bool := false
  running : List AppendChallengedFile.Running := []
  /-- the operations that have ended -/
  ended : List Nat := []
  /-- activations of `process_queue` -/
  frames : Nat := 0
  /-- history: the operations that were enqueued, and that were started -/
  enqueued : List AppendChallengedFile.FileOp := []
  started : List AppendChallengedFile.FileOp := []
  /-- history: `close` was called; how often `_completed` was set -/
  closed : Bool := false
  completed : Nat := 0
  deriving DecidableEq, Repr

namespace AppendChallengedFile

/-- `align_up`. -/
def alignUp (v align : UInt64) : UInt64 := (v + align - 1) &&& ~~~(align - 1)

/-- `must_run_alone`. -/
def mustRunAlone (s : AppendChallengedFile) (candidate : FileOp) : Bool :=
  candidate.type = .truncate || (candidate.type = .flush && (s.fsyncIsExclusive || s.sloppySize))

/-- `size_changing`. -/
def sizeChanging (s : AppendChallengedFile) (candidate : FileOp) : Bool :=
  (candidate.type = .write && candidate.pos + candidate.len > s.committedSize) ||
    s.mustRunAlone candidate

/-- `may_dispatch`. -/
def mayDispatch (s : AppendChallengedFile) (candidate : FileOp) : Bool :=
  if s.sizeChanging candidate then
    s.currentSizeChangingOps = 0 && s.currentNonSizeChangingOps = 0
  else s.currentSizeChangingOps = 0

/-- `dispatch`. A `flush` truncates the file to its logical size as it starts. -/
def dispatch (ftruncateOk : Bool) (candidate : FileOp) (s : AppendChallengedFile) :
    AppendChallengedFile :=
  let changing := s.sizeChanging candidate
  { s with
    currentSizeChangingOps := s.currentSizeChangingOps + if changing then 1 else 0
    currentNonSizeChangingOps := s.currentNonSizeChangingOps + if changing then 0 else 1
    running := s.running ++ [⟨candidate, changing⟩]
    started := s.started ++ [candidate]
    committedSize :=
      if candidate.type = .flush && s.logicalSize ≠ s.committedSize && ftruncateOk then s.logicalSize
      else s.committedSize }

/-- The loop of `optimize_queue`: the size after the appending writes and their number. -/
def speculate (s : AppendChallengedFile) : List FileOp → UInt64 × Nat → UInt64 × Nat
  | [], acc => acc
  | op :: q, (speculativeSize, n) =>
    if s.mustRunAlone op then (speculativeSize, n)
    else if op.type = .write && op.pos + op.len > s.committedSize then
      speculate s q (max speculativeSize (op.pos + op.len), n + 1)
    else speculate s q (speculativeSize, n)

/-- `optimize_queue`. -/
def optimizeQueue (ftruncateOk : Bool) (s : AppendChallengedFile) : AppendChallengedFile :=
  if s.currentNonSizeChangingOps ≠ 0 || s.currentSizeChangingOps ≠ 0 then s
  else
    let (speculativeSize, nAppendingWrites) := s.speculate s.q (s.committedSize, 0)
    if nAppendingWrites > s.maxSizeChangingOps || (nAppendingWrites ≠ 0 && s.sloppySize) then
      let speculativeSize :=
        if s.sloppySize && speculativeSize < 2 * s.committedSize then
          alignUp (2 * s.committedSize) s.diskWriteDmaAlignment
        else speculativeSize
      if ftruncateOk then { s with committedSize := speculativeSize } else s
    else s

/-- `process_queue` up to its loop. -/
def processQueue (ftruncateOk : Bool) (s : AppendChallengedFile) : AppendChallengedFile :=
  { s.optimizeQueue ftruncateOk with frames := s.frames + 1 }

/-- `may_quit`. -/
def mayQuit (s : AppendChallengedFile) : Bool :=
  s.done && s.q.isEmpty && s.currentNonSizeChangingOps = 0 && s.currentSizeChangingOps = 0

/-- A round of the loop of `process_queue`, or what follows it. A promise can be set only once. -/
def loop (ftruncateOk : Bool) (s : AppendChallengedFile) : Except Fault AppendChallengedFile :=
  match s.q with
  | op :: q =>
    if s.mayDispatch op then .ok ({ s with q }.dispatch ftruncateOk op)
    else .ok { s with frames := s.frames - 1 }
  | [] =>
    if s.mayQuit then
      if s.completed = 0 then
        .ok { s with frames := s.frames - 1, completed := 1, done := false }
      else .error .assertFailed
    else .ok { s with frames := s.frames - 1 }

/-- `enqueue`. -/
def enqueue (ftruncateOk : Bool) (type : Opcode) (pos len : UInt64) (s : AppendChallengedFile) :
    AppendChallengedFile :=
  let op : FileOp := ⟨type, pos, len, s.enqueued.length⟩
  { s with q := s.q ++ [op], enqueued := s.enqueued ++ [op] }.processQueue ftruncateOk

/-- The calls of the file. -/
inductive Call
  | read (pos len : UInt64)
  | write (pos len : UInt64)
  | truncate (length : UInt64)
  | flush
  | close
  deriving DecidableEq, Repr

/-- `read_dma`, `write_dma`, `truncate`, `flush` and `close`. -/
def call (ftruncateOk : Bool) (s : AppendChallengedFile) : Call → AppendChallengedFile
  | .read pos len =>
    if pos ≥ s.logicalSize then s
    else
      let len := min (pos + len) (alignUp s.logicalSize s.diskReadDmaAlignment) - pos
      s.enqueue ftruncateOk .read pos len
  | .write pos len => s.enqueue ftruncateOk .write pos len
  | .truncate length => s.enqueue ftruncateOk .truncate length 0
  | .flush =>
    if (!s.sloppySize || s.logicalSize = s.committedSize) && !s.fsyncIsExclusive then s
    else s.enqueue ftruncateOk .flush 0 0
  | .close => { s with done := true, closed := true }.processQueue ftruncateOk

/-- `commit_size`. -/
def commitSize (size : UInt64) (s : AppendChallengedFile) : AppendChallengedFile :=
  { s with committedSize := max size s.committedSize, logicalSize := max size s.logicalSize }

/-- An operation ends, with an error or with the number of bytes. -/
def finish (op : FileOp) (result : Option UInt64) (s : AppendChallengedFile) :
    AppendChallengedFile :=
  match op.type, result with
  | .write, some ret => s.commitSize (op.pos + ret)
  | .truncate, some _ => { s with committedSize := op.pos, logicalSize := op.pos }
  | _, _ => s

/-- The continuation of an operation in `dispatch`. -/
def release (ftruncateOk : Bool) (x : Running) (s : AppendChallengedFile) :
    AppendChallengedFile :=
  { s with
    running := s.running.erase x
    currentSizeChangingOps := s.currentSizeChangingOps - if x.sizeChanging then 1 else 0
    currentNonSizeChangingOps := s.currentNonSizeChangingOps - if x.sizeChanging then 0 else 1
  }.processQueue ftruncateOk

/-- What can happen; each says whether an `ftruncate` made in it succeeds. -/
inductive Action
  | call (c : Call) (ftruncateOk : Bool)
  | loop (ftruncateOk : Bool)
  | finished (number : Nat) (result : Option UInt64)
  | released (number : Nat) (ftruncateOk : Bool)
  /-- the continuation of `_completed` in `close` -/
  | closed (ftruncateOk : Bool)
  deriving DecidableEq, Repr

/-- The running operation of a number. -/
def find (s : AppendChallengedFile) (number : Nat) : Option Running :=
  s.running.find? (·.op.number = number)

/-- One action; one that `Valid` excludes changes nothing. -/
def step (s : AppendChallengedFile) : Action → Except Fault AppendChallengedFile
  | .call c ok => .ok (s.call ok c)
  | .loop ok => s.loop ok
  | .finished number result =>
    match s.find number with
    | some x => .ok ({ s with ended := s.ended ++ [number] }.finish x.op result)
    | none => .ok s
  | .released number ok =>
    match s.find number with
    | some x => .ok (s.release ok x)
    | none => .ok s
  | .closed ok =>
    .ok (if s.logicalSize ≠ s.committedSize && ok then { s with committedSize := s.logicalSize }
      else s)

/-- The file after the actions, oldest first. -/
def run : AppendChallengedFile → List Action → Except Fault AppendChallengedFile := Run.run step

/-- An operation ends once, with no more bytes than it was given, and its continuation runs after
that. -/
def Valid (s : AppendChallengedFile) : Action → Prop
  | .call _ _ => True
  | .loop _ => 0 < s.frames
  | .finished number result =>
    ∃ x ∈ s.find number, number ∉ s.ended ∧ ∀ n ∈ result, n ≤ x.op.len
  | .released number _ => ∃ x ∈ s.find number, number ∈ s.ended
  | .closed _ => 0 < s.completed

instance (s : AppendChallengedFile) : (a : Action) → Decidable (Valid s a)
  | .call _ _ => .isTrue trivial
  | .loop _ => inferInstanceAs (Decidable (0 < s.frames))
  | .finished number result =>
    -- the quantifier is over the result, not over the 64-bit numbers
    have (x : Running) : Decidable (∀ n ∈ result, n ≤ x.op.len) := Option.decidableForallMem _
    inferInstanceAs (Decidable (∃ x ∈ s.find number, number ∉ s.ended ∧
      ∀ n ∈ result, n ≤ x.op.len))
  | .released number _ => inferInstanceAs (Decidable (∃ x ∈ s.find number, number ∈ s.ended))
  | .closed _ => inferInstanceAs (Decidable (0 < s.completed))

/-- The position after an operation. -/
def FileOp.end (op : FileOp) : Nat := op.pos.toNat + op.len.toNat

/-- Nothing is called after `close`, writes end below 2^64, and fewer than 2^32 operations are queued
or running. -/
def Orderly (s : AppendChallengedFile) : Action → Prop
  | .call c _ => s.closed = false ∧ s.running.length + s.q.length + 1 < 2 ^ 32 ∧
    ∀ pos len, c = .write pos len → pos.toNat + len.toNat < 2 ^ 64
  | _ => True

instance (s : AppendChallengedFile) (a : Action) : Decidable (Orderly s a) := by
  cases a with
  | call c ok =>
    cases c with
    | write pos len =>
      exact decidable_of_iff (s.closed = false ∧ s.running.length + s.q.length + 1 < 2 ^ 32 ∧
        pos.toNat + len.toNat < 2 ^ 64)
        ⟨fun h => ⟨h.1, h.2.1, fun _ _ he => by cases he; exact h.2.2⟩,
          fun h => ⟨h.1, h.2.1, h.2.2 pos len rfl⟩⟩
    | _ =>
      exact decidable_of_iff (s.closed = false ∧ s.running.length + s.q.length + 1 < 2 ^ 32)
        ⟨fun h => ⟨h.1, h.2, fun _ _ he => nomatch he⟩, fun h => ⟨h.1, h.2.1⟩⟩
  | _ => exact .isTrue trivial

/-! ## The invariant -/

variable {s : AppendChallengedFile}

/-- What holds of the operations that run and that are queued. -/
structure Inv (s : AppendChallengedFile) : Prop where
  changing : s.currentSizeChangingOps.toNat = s.running.countP Running.sizeChanging
  steady : s.currentNonSizeChangingOps.toNat = s.running.countP fun x => !x.sizeChanging
  few : s.running.length + s.q.length < 2 ^ 32
  alone : ∀ x ∈ s.running, x.sizeChanging = true → s.running = [x]
  within : ∀ x ∈ s.running, x.sizeChanging = false → s.mustRunAlone x.op = false ∧
    (x.op.type = .write → x.op.end ≤ s.committedSize.toNat)
  fits : ∀ op ∈ s.q, op.type = .write → op.end < 2 ^ 64
  flushes : ∀ op ∈ s.q, op.type = .flush → s.mustRunAlone op = true
  order : s.enqueued = s.started ++ s.q
  idle : s.frames = 0 → s.q ≠ [] → s.running ≠ []
  quit : s.completed ≠ 0 →
    s.completed = 1 ∧ s.closed = true ∧ s.done = false ∧ s.q = [] ∧ s.running = []
  closing : s.closed = true → s.done = true ∨ s.completed = 1
  settled : s.closed = true → s.frames = 0 → s.q = [] → s.running = [] → s.completed = 1
  doneClosed : s.done = true → s.closed = true

/-- Nothing runs when both counters are zero. -/
theorem Inv.none_running (h : Inv s) (hc : s.currentSizeChangingOps = 0)
    (hn : s.currentNonSizeChangingOps = 0) : s.running = [] := by
  have h₁ : s.running.countP Running.sizeChanging = 0 := by
    rw [← h.changing, hc]
    rfl
  have h₂ : (s.running.countP fun x => !x.sizeChanging) = 0 := by
    rw [← h.steady, hn]
    rfl
  rw [List.countP_eq_zero] at h₁ h₂
  rw [List.eq_nil_iff_forall_not_mem]
  intro x hx
  have hx₁ := h₁ x hx
  have hx₂ := h₂ x hx
  cases hs : x.sizeChanging with
  | true => exact hx₁ hs
  | false => exact hx₂ (by rw [hs]; rfl)

theorem Inv.counters_zero (h : Inv s) (hr : s.running = []) :
    s.currentSizeChangingOps = 0 ∧ s.currentNonSizeChangingOps = 0 := by
  have h₁ := h.changing
  have h₂ := h.steady
  rw [hr] at h₁ h₂
  exact ⟨UInt32.toNat_inj.mp h₁, UInt32.toNat_inj.mp h₂⟩

/-- `optimize_queue` changes nothing but the committed size, and that only when nothing runs. -/
theorem optimizeQueue_eq (ok : Bool) (s : AppendChallengedFile) :
    ∃ size, s.optimizeQueue ok = { s with committedSize := size } ∧
      (¬ (s.currentNonSizeChangingOps = 0 ∧ s.currentSizeChangingOps = 0) →
        size = s.committedSize) := by
  unfold optimizeQueue
  split
  · exact ⟨s.committedSize, rfl, fun _ => rfl⟩
  · rename_i hbusy
    have hidle : s.currentNonSizeChangingOps = 0 ∧ s.currentSizeChangingOps = 0 := by
      simpa using hbusy
    dsimp only
    split
    · split
      · exact ⟨_, rfl, fun h => absurd hidle h⟩
      · exact ⟨s.committedSize, rfl, fun _ => rfl⟩
    · exact ⟨s.committedSize, rfl, fun _ => rfl⟩

/-- What `process_queue` needs of the state it is called in: the invariant but for what its loop sees
to. -/
structure Ready (s : AppendChallengedFile) : Prop where
  changing : s.currentSizeChangingOps.toNat = s.running.countP Running.sizeChanging
  steady : s.currentNonSizeChangingOps.toNat = s.running.countP fun x => !x.sizeChanging
  few : s.running.length + s.q.length < 2 ^ 32
  alone : ∀ x ∈ s.running, x.sizeChanging = true → s.running = [x]
  within : ∀ x ∈ s.running, x.sizeChanging = false → s.mustRunAlone x.op = false ∧
    (x.op.type = .write → x.op.end ≤ s.committedSize.toNat)
  fits : ∀ op ∈ s.q, op.type = .write → op.end < 2 ^ 64
  flushes : ∀ op ∈ s.q, op.type = .flush → s.mustRunAlone op = true
  order : s.enqueued = s.started ++ s.q
  quit : s.completed ≠ 0 →
    s.completed = 1 ∧ s.closed = true ∧ s.done = false ∧ s.q = [] ∧ s.running = []
  closing : s.closed = true → s.done = true ∨ s.completed = 1
  doneClosed : s.done = true → s.closed = true

/-- Entering `process_queue`; an operation that keeps running keeps the committed size. -/
theorem Ready.processQueue (h : Ready s) (ok : Bool) :
    Inv (s.processQueue ok) ∧ (s.processQueue ok).running = s.running ∧
      (s.running ≠ [] → (s.processQueue ok).committedSize = s.committedSize) := by
  obtain ⟨size, heq, hsize⟩ := optimizeQueue_eq ok s
  have hrunning : s.running ≠ [] → size = s.committedSize := by
    intro hne
    refine hsize fun ⟨hn, hc⟩ => hne ?_
    have h₁ := h.changing
    have h₂ := h.steady
    rw [hc] at h₁
    rw [hn] at h₂
    rw [List.eq_nil_iff_forall_not_mem]
    intro x hx
    cases hs : x.sizeChanging with
    | true => exact List.countP_eq_zero.mp h₁.symm x hx hs
    | false => exact List.countP_eq_zero.mp h₂.symm x hx (by rw [hs]; rfl)
  unfold AppendChallengedFile.processQueue
  rw [heq]
  refine ⟨⟨h.changing, h.steady, h.few, h.alone, ?_, h.fits, h.flushes, h.order, ?_, h.quit, h.closing, ?_,
    h.doneClosed⟩, rfl,
    hrunning⟩
  · intro x hx hs
    refine ⟨(h.within x hx hs).1, fun hw => ?_⟩
    show x.op.end ≤ size.toNat
    rw [hrunning (List.ne_nil_of_mem hx)]
    exact (h.within x hx hs).2 hw
  · intro hf
    exact absurd hf (Nat.succ_ne_zero s.frames)
  · intro _ hf
    exact absurd hf (Nat.succ_ne_zero s.frames)

/-- Not changing the size, by the code's arithmetic, is ending within the committed size. -/
theorem sizeChanging_eq_false {op : FileOp} (hfits : op.type = .write → op.end < 2 ^ 64) :
    s.sizeChanging op = false ↔ s.mustRunAlone op = false ∧
      (op.type = .write → op.end ≤ s.committedSize.toNat) := by
  unfold sizeChanging
  rw [Bool.or_eq_false_iff, and_comm]
  refine and_congr_right fun _ => ?_
  by_cases hw : op.type = .write
  · have hadd : (op.pos + op.len).toNat = op.end := by
      rw [UInt64.toNat_add]
      exact Nat.mod_eq_of_lt (hfits hw)
    simp only [hw, decide_true, Bool.true_and, decide_eq_false_iff_not, forall_const]
    show ¬ s.committedSize < op.pos + op.len ↔ _
    rw [UInt64.lt_iff_toNat_lt, hadd, Nat.not_lt]
  · simp [hw]

/-- An operation is started at the end of what runs. -/
theorem Inv.dispatch (h : Inv s) {op : FileOp} {q : List FileOp} (hq : s.q = op :: q)
    (hd : s.mayDispatch op = true) (ok : Bool) :
    Inv ({ s with q }.dispatch ok op) ∧
      (s.running ≠ [] → ({ s with q }.dispatch ok op).committedSize = s.committedSize) := by
  have hfits := h.fits op (hq ▸ List.mem_cons_self)
  have hfew := h.few
  rw [hq, List.length_cons] at hfew
  have hnc : s.completed = 0 := by
    by_contra hc
    have hnil := (h.quit hc).2.2.2.1
    rw [hq] at hnil
    exact absurd hnil (List.cons_ne_nil _ _)
  have hcount₁ : (s.running ++ [(⟨op, s.sizeChanging op⟩ : Running)]).countP Running.sizeChanging =
      s.running.countP Running.sizeChanging + if s.sizeChanging op then 1 else 0 := by
    rw [List.countP_append, List.countP_singleton]
  have hcount₂ : ((s.running ++ [(⟨op, s.sizeChanging op⟩ : Running)]).countP
      fun x => !x.sizeChanging) =
      (s.running.countP fun x => !x.sizeChanging) + if s.sizeChanging op then 0 else 1 := by
    rw [List.countP_append, List.countP_singleton]
    cases s.sizeChanging op <;> rfl
  have hle₁ := List.countP_le_length (p := Running.sizeChanging) (l := s.running)
  have hle₂ := List.countP_le_length (p := fun x => !x.sizeChanging) (l := s.running)
  have halone : ∀ x ∈ s.running ++ [(⟨op, s.sizeChanging op⟩ : Running)], x.sizeChanging = true →
      s.running ++ [(⟨op, s.sizeChanging op⟩ : Running)] = [x] := by
    intro x hx hxs
    cases hs : s.sizeChanging op with
    | true =>
      have hcounters : s.currentSizeChangingOps = 0 ∧ s.currentNonSizeChangingOps = 0 := by
        unfold mayDispatch at hd
        rw [hs, if_pos rfl] at hd
        simpa using hd
      rw [hs, h.none_running hcounters.1 hcounters.2] at hx
      rw [h.none_running hcounters.1 hcounters.2, List.mem_singleton.mp hx]
      rfl
    | false =>
      have hzero : s.currentSizeChangingOps = 0 := by
        unfold mayDispatch at hd
        rw [hs, if_neg Bool.false_ne_true] at hd
        simpa using hd
      have hnone : s.running.countP Running.sizeChanging = 0 := by
        rw [← h.changing, hzero]
        rfl
      rw [hs] at hx
      rcases List.mem_append.mp hx with hx | hx
      · exact absurd hxs (List.countP_eq_zero.mp hnone x hx)
      · rw [List.mem_singleton.mp hx] at hxs
        exact absurd hxs Bool.false_ne_true
  have hcommitted : s.running ≠ [] →
      ({ s with q }.dispatch ok op).committedSize = s.committedSize := by
    intro hne
    show (if _ then s.logicalSize else s.committedSize) = s.committedSize
    split
    · rename_i hf
      have hflush : op.type = .flush := by
        simp only [Bool.and_eq_true, decide_eq_true_iff] at hf
        exact hf.1.1
      have hs : s.sizeChanging op = true := by
        unfold sizeChanging
        rw [h.flushes op (hq ▸ List.mem_cons_self) hflush, Bool.or_true]
      have hmem : (⟨op, s.sizeChanging op⟩ : Running) ∈
          s.running ++ [(⟨op, s.sizeChanging op⟩ : Running)] :=
        List.mem_append_right _ (List.mem_singleton_self _)
      have hlone := congrArg List.length (halone _ hmem hs)
      rw [List.length_append] at hlone
      exact absurd (List.length_eq_zero_iff.mp (Nat.succ.inj hlone)) hne
    · rfl
  refine ⟨⟨?_, ?_, ?_, halone, ?_, ?_, ?_, ?_, ?_, ?_, h.closing, ?_, h.doneClosed⟩, hcommitted⟩
  · show (s.currentSizeChangingOps + if s.sizeChanging op = true then 1 else 0).toNat =
      (s.running ++ [(⟨op, s.sizeChanging op⟩ : Running)]).countP Running.sizeChanging
    rw [hcount₁, UInt32.toNat_add, h.changing]
    cases s.sizeChanging op with
    | true => exact Nat.mod_eq_of_lt (show _ + 1 < 2 ^ 32 by omega)
    | false => exact Nat.mod_eq_of_lt (show _ + 0 < 2 ^ 32 by omega)
  · show (s.currentNonSizeChangingOps + if s.sizeChanging op = true then 0 else 1).toNat =
      (s.running ++ [(⟨op, s.sizeChanging op⟩ : Running)]).countP fun x => !x.sizeChanging
    rw [hcount₂, UInt32.toNat_add, h.steady]
    cases s.sizeChanging op with
    | true => exact Nat.mod_eq_of_lt (show _ + 0 < 2 ^ 32 by omega)
    | false => exact Nat.mod_eq_of_lt (show _ + 1 < 2 ^ 32 by omega)
  · show (s.running ++ [_]).length + q.length < 2 ^ 32
    rw [List.length_append, List.length_singleton]
    omega
  · intro x hx hxs
    have hx : x ∈ s.running ++ [(⟨op, s.sizeChanging op⟩ : Running)] := hx
    rcases List.mem_append.mp hx with hx | hx
    · refine ⟨(h.within x hx hxs).1, fun hw => ?_⟩
      rw [hcommitted (List.ne_nil_of_mem hx)]
      exact (h.within x hx hxs).2 hw
    · rw [List.mem_singleton.mp hx] at hxs ⊢
      obtain ⟨hma, hend⟩ := (sizeChanging_eq_false hfits).mp hxs
      refine ⟨hma, fun hw => ?_⟩
      have hnf : (op.type = .flush && s.logicalSize ≠ s.committedSize && ok) = false := by
        have hw : op.type = .write := hw
        rw [hw]
        rfl
      show op.end ≤ (if (op.type = .flush && s.logicalSize ≠ s.committedSize && ok) = true then
        s.logicalSize else s.committedSize).toNat
      rw [hnf]
      exact hend hw
  · exact fun o ho => h.fits o (hq ▸ List.mem_cons_of_mem _ ho)
  · exact fun o ho => h.flushes o (hq ▸ List.mem_cons_of_mem _ ho)
  · show s.enqueued = (s.started ++ [op]) ++ q
    rw [h.order, hq, List.append_assoc]
    rfl
  · exact fun _ _ => List.append_ne_nil_of_right_ne_nil _ (List.cons_ne_nil _ _)
  · exact fun hc => absurd hnc hc
  · intro _ _ _ hr
    exact absurd hr (List.append_ne_nil_of_right_ne_nil _ (List.cons_ne_nil _ _))

/-- The head of the queue has to wait only for operations that run. -/
theorem mayDispatch_of_none (h : Inv s) (hr : s.running = []) (op : FileOp) :
    s.mayDispatch op = true := by
  obtain ⟨hc, hn⟩ := h.counters_zero hr
  unfold mayDispatch
  rw [hc, hn]
  split <;> rfl

/-- An operation that was running before the step and runs after it keeps the committed size. -/
def KeepsCommitted (s s' : AppendChallengedFile) : Prop :=
  ∀ x ∈ s.running, x.sizeChanging = false → x ∈ s'.running → s'.committedSize = s.committedSize

/-- `_completed` is set only when nothing is queued or runs. -/
def CompletesIdle (s s' : AppendChallengedFile) : Prop :=
  s'.completed = s.completed ∨
    (s.completed = 0 ∧ s'.completed = 1 ∧ s.q = [] ∧ s.running = [] ∧ s'.q = [] ∧ s'.running = [])

theorem loop_cons {op : FileOp} {q : List FileOp} (hq : s.q = op :: q) (ok : Bool) :
    s.loop ok = if s.mayDispatch op then .ok ({ s with q }.dispatch ok op)
      else .ok { s with frames := s.frames - 1 } := by
  unfold AppendChallengedFile.loop
  rw [hq]

theorem loop_nil (hq : s.q = []) (ok : Bool) :
    s.loop ok = if s.mayQuit then
      if s.completed = 0 then
        .ok { s with frames := s.frames - 1, completed := 1, done := false }
      else .error .assertFailed
    else .ok { s with frames := s.frames - 1 } := by
  unfold AppendChallengedFile.loop
  rw [hq]

theorem Inv.loop (h : Inv s) (ok : Bool) :
    ∃ s', s.loop ok = .ok s' ∧ Inv s' ∧ KeepsCommitted s s' ∧ CompletesIdle s s' := by
  obtain hq | ⟨op, q, hq⟩ : s.q = [] ∨ ∃ op q, s.q = op :: q := by
    cases s.q with
    | nil => exact Or.inl rfl
    | cons op q => exact Or.inr ⟨op, q, rfl⟩
  · rw [loop_nil hq]
    split
    · rename_i hquit
      have hquit : s.done = true ∧ s.currentNonSizeChangingOps = 0 ∧
          s.currentSizeChangingOps = 0 := by
        simp only [mayQuit, Bool.and_eq_true, decide_eq_true_iff] at hquit
        exact ⟨hquit.1.1.1, hquit.1.2, hquit.2⟩
      have hrun := h.none_running hquit.2.2 hquit.2.1
      have hzero : s.completed = 0 := by
        by_contra hc
        have hd := (h.quit hc).2.2.1
        rw [hquit.1] at hd
        exact Bool.false_ne_true hd.symm
      rw [if_pos hzero]
      have hclosed := h.doneClosed hquit.1
      refine ⟨_, rfl, ⟨h.changing, h.steady, h.few, h.alone, h.within, h.fits, h.flushes, h.order,
        fun _ hne => absurd hq hne, fun _ => ⟨rfl, hclosed, rfl, hq, hrun⟩, fun _ => Or.inr rfl,
        fun _ _ _ _ => rfl, fun hd => absurd hd Bool.false_ne_true⟩, fun _ _ _ _ => rfl,
        Or.inr ⟨hzero, rfl, hq, hrun, hq, hrun⟩⟩
    · rename_i hquit
      refine ⟨_, rfl, ⟨h.changing, h.steady, h.few, h.alone, h.within, h.fits, h.flushes, h.order,
        fun _ hne => absurd hq hne, h.quit, h.closing, fun hclosed _ _ hrun => ?_, h.doneClosed⟩,
        fun _ _ _ _ => rfl, Or.inl rfl⟩
      rcases h.closing hclosed with hd | hc
      · obtain ⟨hc, hn⟩ := h.counters_zero hrun
        exact absurd (by simp [mayQuit, hd, hq, hc, hn]) hquit
      · exact hc
  · rw [loop_cons hq]
    split
    · rename_i hd
      obtain ⟨hinv, hcommitted⟩ := h.dispatch hq hd ok
      exact ⟨_, rfl, hinv, fun x hx _ _ => hcommitted (List.ne_nil_of_mem hx), Or.inl rfl⟩
    · rename_i hd
      have hrun : s.running ≠ [] := fun hr => hd (mayDispatch_of_none h hr op)
      refine ⟨_, rfl, ⟨h.changing, h.steady, h.few, h.alone, h.within, h.fits, h.flushes, h.order,
        fun _ _ => hrun, h.quit, h.closing, fun _ _ hnil => ?_, h.doneClosed⟩, fun _ _ _ _ => rfl, Or.inl rfl⟩
      exact absurd (hq.symm.trans hnil) (List.cons_ne_nil _ _)

/-- An operation is put into the queue. -/
theorem Inv.enqueue (h : Inv s) (hopen : s.closed = false)
    (hfew : s.running.length + s.q.length + 1 < 2 ^ 32) (type : Opcode) (pos len : UInt64)
    (hfits : type = .write → pos.toNat + len.toNat < 2 ^ 64)
    (hflush : type = .flush → (s.fsyncIsExclusive || s.sloppySize) = true) (ok : Bool) :
    Inv (s.enqueue ok type pos len) ∧ (s.enqueue ok type pos len).running = s.running ∧
      (s.running ≠ [] → (s.enqueue ok type pos len).committedSize = s.committedSize) := by
  have hnc : s.completed = 0 := by
    by_contra hc
    have hcl := (h.quit hc).2.1
    rw [hopen] at hcl
    exact Bool.false_ne_true hcl
  refine Ready.processQueue (s := { s with
      q := s.q ++ [⟨type, pos, len, s.enqueued.length⟩]
      enqueued := s.enqueued ++ [⟨type, pos, len, s.enqueued.length⟩] }) ⟨h.changing, h.steady, ?_, h.alone,
      h.within, ?_, ?_, ?_, fun hc => absurd hnc hc, h.closing, h.doneClosed⟩ ok
  · show s.running.length + (s.q ++ [_]).length < 2 ^ 32
    rw [List.length_append, List.length_singleton]
    omega
  · intro op hop hw
    rcases List.mem_append.mp hop with hop | hop
    · exact h.fits op hop hw
    · rw [List.mem_singleton.mp hop] at hw ⊢
      exact hfits hw
  · intro op hop hf
    rcases List.mem_append.mp hop with hop | hop
    · exact h.flushes op hop hf
    · rw [List.mem_singleton.mp hop] at hf ⊢
      have hf : type = .flush := hf
      unfold mustRunAlone
      rw [Bool.or_eq_true]
      refine Or.inr ?_
      rw [Bool.and_eq_true]
      exact ⟨decide_eq_true hf, hflush hf⟩
  · show s.enqueued ++ [_] = s.started ++ (s.q ++ [_])
    rw [h.order, List.append_assoc]

theorem enqueue_completed (ok : Bool) (type : Opcode) (pos len : UInt64)
    (s : AppendChallengedFile) : (s.enqueue ok type pos len).completed = s.completed := by
  obtain ⟨size, heq, -⟩ := optimizeQueue_eq ok
    { s with
      q := s.q ++ [⟨type, pos, len, s.enqueued.length⟩]
      enqueued := s.enqueued ++ [⟨type, pos, len, s.enqueued.length⟩] }
  show (optimizeQueue ok _).completed = s.completed
  rw [heq]

theorem Inv.call (h : Inv s) {c : Call} {ok : Bool} (ho : Orderly s (.call c ok)) :
    Inv (s.call ok c) ∧ KeepsCommitted s (s.call ok c) ∧ CompletesIdle s (s.call ok c) := by
  obtain ⟨hopen, hfew, hwrite⟩ := ho
  have henqueue : ∀ (type : Opcode) (pos len : UInt64),
      (type = .write → pos.toNat + len.toNat < 2 ^ 64) →
      (type = .flush → (s.fsyncIsExclusive || s.sloppySize) = true) →
      Inv (s.enqueue ok type pos len) ∧ KeepsCommitted s (s.enqueue ok type pos len) ∧
        CompletesIdle s (s.enqueue ok type pos len) := by
    intro type pos len hfits hflush
    obtain ⟨hinv, -, hcommitted⟩ := h.enqueue hopen hfew type pos len hfits hflush ok
    exact ⟨hinv, fun x hx _ _ => hcommitted (List.ne_nil_of_mem hx), Or.inl (enqueue_completed ..)⟩
  have hsame : Inv s ∧ KeepsCommitted s s ∧ CompletesIdle s s := ⟨h, fun _ _ _ _ => rfl, Or.inl rfl⟩
  cases c with
  | read pos len =>
    dsimp only [AppendChallengedFile.call]
    split
    · exact hsame
    · exact henqueue _ _ _ nofun nofun
  | write pos len => exact henqueue _ _ _ (fun _ => hwrite pos len rfl) nofun
  | truncate length => exact henqueue _ _ _ nofun nofun
  | flush =>
    dsimp only [AppendChallengedFile.call]
    split
    · exact hsame
    · rename_i hf
      refine henqueue _ _ _ nofun fun _ => ?_
      cases he : s.fsyncIsExclusive with
      | true => rfl
      | false =>
        cases hs : s.sloppySize with
        | true => rfl
        | false => exact absurd (by simp [he, hs]) hf
  | close =>
    have hnc : s.completed = 0 := by
      by_contra hc
      have hcl := (h.quit hc).2.1
      rw [hopen] at hcl
      exact Bool.false_ne_true hcl
    obtain ⟨hinv, -, hcommitted⟩ := Ready.processQueue (s := { s with done := true, closed := true })
      ⟨h.changing, h.steady, h.few, h.alone, h.within, h.fits, h.flushes, h.order,
        fun hc => absurd hnc hc, fun _ => Or.inl rfl, fun _ => rfl⟩ ok
    refine ⟨hinv, fun x hx _ _ => hcommitted (List.ne_nil_of_mem hx), Or.inl ?_⟩
    obtain ⟨size, heq, -⟩ := optimizeQueue_eq ok { s with done := true, closed := true }
    show (optimizeQueue ok _).completed = s.completed
    rw [heq]

theorem find_mem {number : Nat} {x : Running} (h : s.find number = some x) : x ∈ s.running :=
  List.mem_of_find?_eq_some h

/-- The sizes after an operation, when one that does not change them keeps them. -/
theorem Inv.sizes (h : Inv s) {x : Running} (hx : x ∈ s.running) {committed logical : UInt64}
    (ended : List Nat) (hkeep : x.sizeChanging = false → committed = s.committedSize) :
    Inv { s with committedSize := committed, logicalSize := logical, ended } ∧
      KeepsCommitted s { s with committedSize := committed, logicalSize := logical, ended } := by
  have hlone : ∀ y ∈ s.running, y.sizeChanging = false → x.sizeChanging = false := by
    intro y hy hys
    cases hxs : x.sizeChanging with
    | false => rfl
    | true =>
      rw [h.alone x hx hxs] at hy
      rw [List.mem_singleton.mp hy, hxs] at hys
      exact hys
  refine ⟨⟨h.changing, h.steady, h.few, h.alone, ?_, h.fits, h.flushes, h.order, h.idle, h.quit,
    h.closing, h.settled, h.doneClosed⟩, ?_⟩
  · intro y hy hys
    refine ⟨(h.within y hy hys).1, fun hw => ?_⟩
    show y.op.end ≤ committed.toNat
    rw [hkeep (hlone y hy hys)]
    exact (h.within y hy hys).2 hw
  · intro y hy hys _
    exact hkeep (hlone y hy hys)

theorem finish_completed (op : FileOp) (result : Option UInt64) (s : AppendChallengedFile) :
    (s.finish op result).completed = s.completed := by
  unfold finish
  split <;> rfl

/-- An operation that does not change the size leaves the committed size as it is. -/
theorem Inv.finish (h : Inv s) {x : Running} (hx : x ∈ s.running) {result : Option UInt64}
    (hlen : ∀ n ∈ result, n ≤ x.op.len) (ended : List Nat) :
    Inv ({ s with ended }.finish x.op result) ∧
      KeepsCommitted s ({ s with ended }.finish x.op result) := by
  unfold AppendChallengedFile.finish
  split
  · rename_i ret htype
    refine h.sizes hx ended fun hs => ?_
    have hend := (h.within x hx hs).2 htype
    have hret : ret.toNat ≤ x.op.len.toNat := UInt64.le_iff_toNat_le.mp (hlen ret rfl)
    have hlt := s.committedSize.toNat_lt
    have hadd : (x.op.pos + ret).toNat ≤ s.committedSize.toNat := by
      rw [UInt64.toNat_add]
      refine Nat.le_trans (Nat.mod_le _ _) (Nat.le_trans ?_ hend)
      exact Nat.add_le_add_left hret _
    show (if x.op.pos + ret ≤ s.committedSize then s.committedSize else x.op.pos + ret) = _
    rw [if_pos (UInt64.le_iff_toNat_le.mpr hadd)]
  · rename_i n htype
    refine h.sizes hx ended fun hs => ?_
    have hma := (h.within x hx hs).1
    unfold mustRunAlone at hma
    rw [htype] at hma
    exact absurd hma.symm Bool.false_ne_true
  · exact h.sizes hx ended fun _ => rfl

theorem toNat_sub_of_add {a b : UInt32} {n : Nat} (h : n + b.toNat = a.toNat) :
    (a - b).toNat = n := by
  have ha := a.toNat_lt
  rw [UInt32.toNat_sub, ← h]
  omega

/-- An operation leaves the ones that run. -/
theorem Inv.release (h : Inv s) {x : Running} (hx : x ∈ s.running) (ok : Bool) :
    Inv (s.release ok x) ∧ KeepsCommitted s (s.release ok x) ∧ CompletesIdle s (s.release ok x) := by
  have hfew := h.few
  have hlen := List.length_erase_of_mem hx
  have hpos := List.length_pos_of_mem hx
  have hc₁ := Counting.countP_erase_add Running.sizeChanging hx
  have hc₂ := Counting.countP_erase_add (fun x => !x.sizeChanging) hx
  have hnc : s.completed = 0 := by
    by_contra hc
    have hnil := (h.quit hc).2.2.2.2
    rw [hnil] at hx
    exact absurd hx List.not_mem_nil
  have hready : Ready { s with
      running := s.running.erase x
      currentSizeChangingOps := s.currentSizeChangingOps - if x.sizeChanging then 1 else 0
      currentNonSizeChangingOps :=
        s.currentNonSizeChangingOps - if x.sizeChanging then 0 else 1 } := by
    refine ⟨?_, ?_, ?_, ?_, ?_, h.fits, h.flushes, h.order, fun hc => absurd hnc hc, h.closing,
      h.doneClosed⟩
    · exact toNat_sub_of_add (by rw [h.changing, ← hc₁]; cases x.sizeChanging <;> rfl)
    · exact toNat_sub_of_add (by rw [h.steady, ← hc₂]; cases x.sizeChanging <;> rfl)
    · show (s.running.erase x).length + s.q.length < 2 ^ 32
      omega
    · intro y hy hys
      have hlone := h.alone y (List.mem_of_mem_erase hy) hys
      have hy : y ∈ s.running.erase x := hy
      rw [hlone] at hx hy
      rw [List.mem_singleton.mp hx, List.erase_cons_head] at hy
      exact absurd hy List.not_mem_nil
    · exact fun y hy hys => h.within y (List.mem_of_mem_erase hy) hys
  obtain ⟨hinv, hrunning, hcommitted⟩ := hready.processQueue ok
  refine ⟨hinv, fun y _ _ hy => hcommitted (List.ne_nil_of_mem (hrunning ▸ hy)), Or.inl ?_⟩
  obtain ⟨size, heq, -⟩ := optimizeQueue_eq ok { s with
    running := s.running.erase x
    currentSizeChangingOps := s.currentSizeChangingOps - if x.sizeChanging then 1 else 0
    currentNonSizeChangingOps := s.currentNonSizeChangingOps - if x.sizeChanging then 0 else 1 }
  show (optimizeQueue ok _).completed = s.completed
  rw [heq]

/-! ## Runs -/

theorem Inv.initial (maxSizeChangingOps : Nat) (fsyncIsExclusive sloppySize : Bool)
    (readAlign writeAlign committed logical : UInt64) :
    Inv ⟨maxSizeChangingOps, fsyncIsExclusive, sloppySize, readAlign, writeAlign, committed, logical,
      [], 0, 0, false, [], [], 0, [], [], false, 0⟩ where
  changing := rfl
  steady := rfl
  few := by
    show 0 + 0 < 2 ^ 32
    decide
  alone _ hx := absurd hx List.not_mem_nil
  within _ hx := absurd hx List.not_mem_nil
  fits _ hx := absurd hx List.not_mem_nil
  flushes _ hx := absurd hx List.not_mem_nil
  order := rfl
  idle _ hq := absurd rfl hq
  quit hc := absurd rfl hc
  closing hc := absurd hc Bool.false_ne_true
  settled hc := absurd hc Bool.false_ne_true
  doneClosed hd := absurd hd Bool.false_ne_true

/-- What one action does. -/
theorem Inv.step (h : Inv s) {a : Action} (hv : Valid s a) (ho : Orderly s a) :
    ∃ s', step s a = .ok s' ∧ Inv s' ∧ KeepsCommitted s s' ∧ CompletesIdle s s' := by
  cases a with
  | call c ok => exact ⟨_, rfl, h.call ho⟩
  | loop ok => exact h.loop ok
  | finished number result =>
    obtain ⟨x, hx, -, hlen⟩ := hv
    have hx : s.find number = some x := hx
    obtain ⟨hinv, hkeep⟩ := h.finish (find_mem hx) hlen (s.ended ++ [number])
    refine ⟨_, ?_, hinv, hkeep, Or.inl (finish_completed _ _ _)⟩
    simp only [AppendChallengedFile.step, hx]
  | released number ok =>
    obtain ⟨x, hx, -⟩ := hv
    have hx : s.find number = some x := hx
    refine ⟨_, ?_, h.release (find_mem hx) ok⟩
    simp only [AppendChallengedFile.step, hx]
  | closed ok =>
    have hrun := (h.quit (Nat.ne_of_gt hv)).2.2.2.2
    have hnone : ∀ x, x ∉ s.running := fun x hx => absurd (hrun ▸ hx) List.not_mem_nil
    refine ⟨_, rfl, ?_⟩
    split
    · refine ⟨⟨h.changing, h.steady, h.few, h.alone, fun x hx => absurd hx (hnone x), h.fits,
        h.flushes, h.order, h.idle, h.quit, h.closing, h.settled, h.doneClosed⟩,
        fun x hx => absurd hx (hnone x), Or.inl rfl⟩
    · exact ⟨h, fun _ _ _ _ => rfl, Or.inl rfl⟩

/-- The operations that run, in a state that can be reached. -/
structure Scheduled (s : AppendChallengedFile) : Prop where
  /-- an operation that changes the size runs alone -/
  alone : ∀ x ∈ s.running, s.sizeChanging x.op = true → s.running = [x]
  /-- writes that run with others end within the committed size -/
  within : ∀ x ∈ s.running, s.running ≠ [x] → x.op.type = .write →
    x.op.end ≤ s.committedSize.toNat
  /-- operations are started once, in the order they were enqueued -/
  order : s.enqueued = s.started ++ s.q
  /-- outside of `process_queue` operations wait only for others -/
  idle : s.frames = 0 → s.q ≠ [] → s.running ≠ []
  /-- `_completed` is set at most once, and then nothing is left -/
  once : s.completed ≤ 1
  quit : s.completed = 1 → s.closed = true ∧ s.q = [] ∧ s.running = []
  /-- `_completed` is set when the file was closed and nothing is left -/
  settled : s.closed = true → s.frames = 0 → s.q = [] → s.running = [] → s.completed = 1

theorem Inv.scheduled (h : Inv s) : Scheduled s where
  alone := by
    intro x hx hs
    cases hxs : x.sizeChanging with
    | true => exact h.alone x hx hxs
    | false =>
      obtain ⟨hma, hend⟩ := h.within x hx hxs
      have hlt := s.committedSize.toNat_lt
      have hfits : x.op.type = .write → x.op.end < 2 ^ 64 :=
        fun hw => Nat.lt_of_le_of_lt (hend hw) hlt
      rw [(sizeChanging_eq_false hfits).mpr ⟨hma, hend⟩] at hs
      exact absurd hs Bool.false_ne_true
  within := by
    intro x hx hne hw
    cases hxs : x.sizeChanging with
    | true => exact absurd (h.alone x hx hxs) hne
    | false => exact (h.within x hx hxs).2 hw
  order := h.order
  idle := h.idle
  once := by
    by_cases hc : s.completed = 0
    · rw [hc]
      exact Nat.zero_le 1
    · exact Nat.le_of_eq (h.quit hc).1
  quit := by
    intro hc
    obtain ⟨-, hclosed, -, hq, hr⟩ := h.quit (by rw [hc]; exact Nat.one_ne_zero)
    exact ⟨hclosed, hq, hr⟩
  settled := h.settled

theorem Inv.run (h : Inv s) {as : List Action}
    (hv : Run.Along AppendChallengedFile.step (fun s a => Valid s a ∧ Orderly s a) s as) :
    ∃ s', run s as = .ok s' ∧ Inv s' := by
  induction as generalizing s with
  | nil => exact ⟨s, rfl, h⟩
  | cons a as ih =>
    obtain ⟨t, ht, hinv, -⟩ := h.step hv.1.1 hv.1.2
    obtain ⟨s', hr, hs'⟩ := ih hinv (hv.2 t ht)
    exact ⟨s', Run.run_cons_ok.mpr ⟨t, ht, hr⟩, hs'⟩

/-- A file that has just been opened. -/
def opened (maxSizeChangingOps : Nat) (fsyncIsExclusive sloppySize : Bool)
    (readAlign writeAlign committed logical : UInt64) : AppendChallengedFile :=
  { maxSizeChangingOps, fsyncIsExclusive, sloppySize, diskReadDmaAlignment := readAlign,
    diskWriteDmaAlignment := writeAlign, committedSize := committed, logicalSize := logical }

/-- In every orderly run the operations are scheduled as they should be, the committed size does not
change while an operation runs that does not change it, and `_completed` is set only when nothing is
queued or runs. -/
theorem run_schedules (maxSizeChangingOps : Nat) (fsyncIsExclusive sloppySize : Bool)
    (readAlign writeAlign committed logical : UInt64) (as : List Action)
    (hv : Run.Along step (fun s a => Valid s a ∧ Orderly s a)
      (opened maxSizeChangingOps fsyncIsExclusive sloppySize readAlign writeAlign committed
        logical) as) :
    ∃ s, run (opened maxSizeChangingOps fsyncIsExclusive sloppySize readAlign writeAlign committed
        logical) as = .ok s ∧ Scheduled s ∧
      ∀ a, Valid s a → Orderly s a →
        ∃ s', step s a = .ok s' ∧ KeepsCommitted s s' ∧ CompletesIdle s s' := by
  obtain ⟨s, hr, hinv⟩ := (Inv.initial maxSizeChangingOps fsyncIsExclusive sloppySize readAlign
    writeAlign committed logical).run hv
  refine ⟨s, hr, hinv.scheduled, fun a hva hoa => ?_⟩
  obtain ⟨s', hs', -, hkeep, hidle⟩ := hinv.step hva hoa
  exact ⟨s', hs', hkeep, hidle⟩

/-- Two writes behind a truncate; the file is extended for both, and closed. -/
theorem run_schedules_appends :
    ∃ s, run (opened 1 true false 512 512 0 0) [.call (.truncate 512) true, .loop true,
      .call (.write 512 512) true, .loop true, .call (.write 1024 512) true, .loop true, .loop true,
      .finished 0 (some 0), .released 0 true, .loop true, .loop true, .loop true,
      .finished 2 (some 512), .released 2 true, .finished 1 (some 512), .released 1 true,
      .loop true, .loop true, .call .close true, .loop true] = .ok s ∧ Scheduled s := by
  obtain ⟨s, hr, hs, -⟩ := run_schedules 1 true false 512 512 0 0 [.call (.truncate 512) true,
    .loop true, .call (.write 512 512) true, .loop true, .call (.write 1024 512) true, .loop true,
    .loop true, .finished 0 (some 0), .released 0 true, .loop true, .loop true, .loop true,
    .finished 2 (some 512), .released 2 true, .finished 1 (some 512), .released 1 true,
    .loop true, .loop true, .call .close true, .loop true] (by decide +kernel)
  exact ⟨s, hr, hs⟩

/-- A second `close` sets `_completed` again. -/
theorem run_close_twice :
    Run.Along step Valid (opened 1 true false 512 512 0 0)
      [.call .close true, .loop true, .closed true, .call .close true, .loop true] ∧
    run (opened 1 true false 512 512 0 0)
      [.call .close true, .loop true, .closed true, .call .close true, .loop true] =
        .error .assertFailed := by
  constructor <;> decide +kernel

end AppendChallengedFile

end Seastar
