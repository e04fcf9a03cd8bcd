import Seastar.Core.Pipe

/-!
Runs of a `pipe`. As long as its ends are used with care, each item that was written is
read once and in order, an item that was given back is read next, and the end of stream
comes after the last item.
-/

namespace Seastar

open Lib

namespace Pipe

variable {T : Type} {p p' : Pipe T} {σ : Stream T} {x : T}

/-! ## The queue of a pipe -/

/-- The queue carries the items but for the one that waits to be written; or else the end of
stream. -/
def Carries (q : List (Option T)) (writing : Option T) (writeOpen : Bool) (items : List T) : Prop :=
  (∃ l : List T, q = l.map some ∧ items = l ++ writing.toList) ∨
    q = [none] ∧ items = [] ∧ writing = none ∧ writeOpen = false

theorem setValue_failed {f : Option Pending} (h : f.map Pending.setValue = some .failed) :
    f = some .failed := by
  obtain ⟨g, hg, hfail⟩ := Option.map_eq_some_iff.mp h
  cases g with
  | failed => exact hg
  | _ => cases hfail

/-- The first of the queue is the next item, or the end of stream. -/
theorem pop_cons (s : Queue (Option T)) {a : Option T} {q : List (Option T)} (h : s.q = a :: q) :
    ∃ notFull, s.pop = .ok (a, { s with q, notFull }) ∧
      (notFull = some .failed → s.notFull = some .failed) := by
  by_cases hlen : s.q.length = s.max
  · refine ⟨s.notFull.map Pending.setValue, ?_, fun hf => ?_⟩
    · rw [Queue.pop, if_pos hlen]
      dsimp only [Queue.notifyNotFull]
      rw [h]
    · exact setValue_failed hf
  · refine ⟨s.notFull, ?_, id⟩
    rw [Queue.pop, if_neg hlen, h]

/-- The pipe and the stream of what is still to be read. -/
structure Inv (p : Pipe T) (σ : Stream T) : Prop where
  unread : σ.unread = p.unread_
  writeClosed : σ.writeClosed = !p.writeOpen
  readClosed : σ.readClosed = !p.readOpen
  aborted : p.buf.ex = true → p.readOpen = false
  readFailed : p.buf.notEmpty = some .failed → p.buf.ex = true
  writeFailed : p.buf.notFull = some .failed → p.buf.ex = true
  reading : ReadPending p → p.deleted = false
  woken : p.buf.ex = false → p.reading = true → p.buf.notEmpty = some .ready → p.buf.q ≠ []
  writing : WritePending p → p.writeOpen = true
  deleted : p.deleted = (!p.readOpen && !p.writeOpen)
  carries : p.buf.ex = false → Carries p.buf.q p.writing p.writeOpen σ.items

theorem Inv.initial (size : Nat) : Inv (create size : Pipe T) {} where
  unread := rfl
  writeClosed := rfl
  readClosed := rfl
  aborted h := (Bool.false_ne_true h).elim
  readFailed h := nomatch h
  writeFailed h := nomatch h
  reading _ := rfl
  woken _ h := (Bool.false_ne_true h).elim
  writing h := (Bool.false_ne_true h.1).elim
  deleted := rfl
  carries _ := Or.inl ⟨[], rfl, rfl⟩

/-- The reader is there, so nothing was aborted. -/
theorem Inv.live (h : Inv p σ) (hopen : p.readOpen = true) : p.buf.ex = false := by
  by_contra hex
  rw [h.aborted (by simpa using hex)] at hopen
  exact Bool.false_ne_true hopen

/-- A write that waits does not fail while nothing is aborted. -/
theorem Inv.pending (h : Inv p σ) (hex : p.buf.ex = false) (hw : p.writing.isSome) :
    WritePending p := by
  refine ⟨hw, fun hf => ?_⟩
  rw [h.writeFailed hf] at hex
  exact Bool.false_ne_true hex.symm

/-! ## Reading -/

variable [DecidableEq T]

/-- What is popped is what the stream delivers. -/
theorem Carries.deliver {a : Option T} {q : List (Option T)} {writing : Option T}
    {writeOpen : Bool} (h : Carries (a :: q) writing writeOpen σ.items)
    (hclosed : σ.writeClosed = !writeOpen) :
    ∃ items, σ.deliver a = some { σ with items } ∧ Carries q writing writeOpen items := by
  rcases h with ⟨l, hl, hitems⟩ | ⟨hl, hitems, hwriting, hopen⟩
  · cases l with
    | nil => cases hl
    | cons x l =>
      obtain ⟨rfl, rfl⟩ := List.cons.inj hl
      refine ⟨l ++ writing.toList, ?_, Or.inl ⟨l, rfl, rfl⟩⟩
      rw [Stream.deliver, hitems]
      simp
  · obtain ⟨rfl, rfl⟩ := List.cons.inj hl
    refine ⟨[], ?_, Or.inl ⟨[], rfl, by rw [hwriting]; rfl⟩⟩
    rw [Stream.deliver, if_pos ⟨hitems, by rw [hclosed, hopen]; rfl⟩, ← hitems]

/-- A pop: a read takes the first of the queue. -/
theorem Inv.pop (h : Inv p σ) (hex : p.buf.ex = false) {a : Option T} {q : List (Option T)}
    (hq : p.buf.q = a :: q) :
    ∃ buf σ', p.buf.pop = .ok (a, buf) ∧ σ.deliver a = some σ' ∧
      ∀ log, Inv { p with buf, reading := false, log } σ' := by
  obtain ⟨notFull, hpop, hfailed⟩ := pop_cons p.buf hq
  have hcarries := h.carries hex
  rw [hq] at hcarries
  obtain ⟨items, hdeliver, hrest⟩ := hcarries.deliver h.writeClosed
  refine ⟨_, _, hpop, hdeliver, fun log => ?_⟩
  constructor
  · exact h.unread
  · exact h.writeClosed
  · exact h.readClosed
  · exact h.aborted
  · exact h.readFailed
  · exact fun hf => h.writeFailed (hfailed hf)
  · exact fun hr => (Bool.false_ne_true hr.1).elim
  · exact fun _ hr => (Bool.false_ne_true hr).elim
  · exact fun hw => h.writing (h.pending hex hw.1)
  · exact h.deleted
  · exact fun _ => hrest

/-- What an action adds to the history is accepted. -/
def Accepted (p : Pipe T) (σ : Stream T) (p' : Pipe T) : Prop :=
  ∃ events σ', p'.log = p.log ++ events ∧ events.foldlM Stream.accept σ = some σ' ∧ Inv p' σ'

theorem accepted_one {e : PipeEvent T} {τ : Stream T} (hlog : p'.log = p.log ++ [e])
    (he : σ.accept e = some τ) (h : Inv p' τ) : Accepted p σ p' :=
  ⟨[e], τ, hlog, by simp [he], h⟩

theorem accepted_none (hlog : p'.log = p.log) (h : Inv p' σ) : Accepted p σ p' :=
  ⟨[], σ, by rw [hlog, List.append_nil], rfl, h⟩

/-- `read`. -/
theorem Inv.read (h : Inv p σ) (hopen : p.readOpen = true) (hreading : p.reading = false) :
    ∃ p', p.read = .ok p' ∧ Accepted p σ p' := by
  have hex := h.live hopen
  have hcarries := h.carries hex
  rw [Pipe.read]
  cases hu : p.unread_ with
  | some x =>
    refine ⟨_, rfl, accepted_one (τ := { σ with unread := none }) rfl ?_ ?_⟩
    · rw [Stream.accept, h.unread, hu]
      exact if_pos rfl
    · exact ⟨rfl, h.writeClosed, h.readClosed, h.aborted, h.readFailed, h.writeFailed, h.reading,
        h.woken, h.writing, h.deleted, h.carries⟩
  | none =>
    rcases hq : p.buf.q with _ | ⟨a, q⟩
    · by_cases hw : p.writeOpen = true
      · have hreadable : p.readable = true := by
          rw [readable, hw]
          rfl
        have hwaits : p.buf.popEventually = .ok (.waits, p.buf.waitNotEmpty) := by
          simp [Queue.popEventually, Queue.empty, hex, hq]
        have hwait : p.buf.waitNotEmpty = { p.buf with notEmpty := some .unresolved } := by
          simp [Queue.waitNotEmpty, Queue.empty, hex, hq]
        dsimp only
        rw [if_pos hreadable, hwaits, hwait]
        refine ⟨_, rfl, accepted_none rfl ?_⟩
        refine ⟨h.unread.trans hu, h.writeClosed, h.readClosed, h.aborted, fun hf => ?_,
          h.writeFailed, fun _ => ?_, fun _ _ hf => ?_, h.writing, h.deleted, h.carries⟩
        · cases hf
        · show p.deleted = false
          rw [h.deleted, hopen]
          rfl
        · cases hf
      · have hreadable : ¬p.readable = true := by
          simp [readable, hw, Queue.empty, hq]
        dsimp only
        rw [if_neg hreadable]
        refine ⟨_, rfl, accepted_one (τ := σ) rfl ?_ ?_⟩
        · rw [hq] at hcarries
          have hwriting : p.writing = none := by
            by_contra hne
            exact hw (h.writing (h.pending hex (Option.isSome_iff_ne_none.mpr hne)))
          have hitems : σ.items = [] := by
            rcases hcarries with ⟨l, hl, hitems⟩ | ⟨hl, -⟩
            · rw [hitems, hwriting, List.map_eq_nil_iff.mp hl.symm]
              rfl
            · cases hl
          have hclosed : σ.writeClosed = true := by
            simpa [h.writeClosed] using hw
          rw [Stream.accept, h.unread, hu]
          exact if_pos ⟨hitems, hclosed⟩
        · exact ⟨h.unread, h.writeClosed, h.readClosed, h.aborted, h.readFailed, h.writeFailed,
            h.reading, h.woken, h.writing, h.deleted, h.carries⟩
    · have hreadable : p.readable = true := by
        simp [readable, Queue.empty, hq]
      obtain ⟨buf, σ', hpop, hdeliver, hinv⟩ := h.pop hex hq
      have hdone : p.buf.popEventually = .ok (.done a, buf) := by
        simp [Queue.popEventually, Queue.empty, hex, hq, hpop, Except.map]
      dsimp only
      rw [if_pos hreadable, hdone]
      refine ⟨_, rfl, accepted_one rfl (τ := σ') ?_ ?_⟩
      · rw [Stream.accept, h.unread, hu]
        exact hdeliver
      · have hinv' := hinv (p.log ++ [.returned a])
        rw [← hreading, hu] at hinv'
        exact hinv'

/-- The continuation of a read. -/
theorem Inv.readResumes (h : Inv p σ) (hreading : p.reading = true)
    (hresolved : Resolved p.buf.notEmpty) : ∃ p', p.readResumes = .ok p' ∧ Accepted p σ p' := by
  -- a read fails after the reader was destroyed
  have hfails : p.buf.ex = true → ∀ log, log = p.log ++ [.failed] →
      Accepted p σ { p with reading := false, log } := by
    rintro hex log rfl
    refine accepted_one (τ := σ) rfl ?_ ?_
    · rw [Stream.accept, h.readClosed, h.aborted hex]
      rfl
    · exact ⟨h.unread, h.writeClosed, h.readClosed, h.aborted, h.readFailed, h.writeFailed,
        fun hr => (Bool.false_ne_true hr.1).elim, fun _ hr => (Bool.false_ne_true hr).elim,
        h.writing, h.deleted, h.carries⟩
  rw [Pipe.readResumes]
  rcases hresolved with hready | hfailed
  · have hdeleted : p.deleted = false := by
      apply h.reading ⟨hreading, _⟩
      rw [hready]
      simp
    rw [hready]
    dsimp only
    rw [hdeleted, if_neg Bool.false_ne_true]
    by_cases hex : p.buf.ex = true
    · have hpop : p.buf.popAfterWait = .ok (.failed, p.buf) := by
        rw [Queue.popAfterWait, if_pos hex]
      have haccepted := hfails hex _ rfl
      rw [hdeleted] at haccepted
      rw [hpop]
      exact ⟨_, rfl, haccepted⟩
    · have hlive : p.buf.ex = false := by simpa using hex
      obtain ⟨a, q, hq⟩ := List.exists_cons_of_ne_nil (h.woken hlive hreading hready)
      obtain ⟨buf, σ', hpop, hdeliver, hinv⟩ := h.pop hlive hq
      have hdone : p.buf.popAfterWait = .ok (.done a, buf) := by
        rw [Queue.popAfterWait, if_neg hex, hpop]
        rfl
      have hinv' := hinv (p.log ++ [.resumed a])
      rw [hdeleted] at hinv'
      rw [hdone]
      exact ⟨_, rfl, accepted_one rfl hdeliver hinv'⟩
  · rw [hfailed]
    exact ⟨_, rfl, hfails (h.readFailed hfailed) _ rfl⟩

/-- `unread`. -/
theorem Inv.gaveBack (h : Inv p σ) (x : T) : Accepted p σ (p.unread x) := by
  rw [Pipe.unread]
  split
  · exact accepted_none rfl h
  · rename_i hu
    refine accepted_one (τ := { σ with unread := some x }) rfl ?_ ?_
    · rw [Stream.accept, h.unread]
      apply if_pos
      simpa using hu
    · exact ⟨rfl, h.writeClosed, h.readClosed, h.aborted, h.readFailed, h.writeFailed, h.reading,
        h.woken, h.writing, h.deleted, h.carries⟩

/-! ## Writing -/

omit [DecidableEq T] in
/-- What is pushed is the last of the queue. -/
theorem Inv.push (h : Inv p σ) (hopen : p.writeOpen = true) {items : List T} {x : T}
    (hitems : p.buf.ex = false → ∃ l : List T, p.buf.q = l.map some ∧ items = l ++ [x])
    (log : List (PipeEvent T)) :
    Inv { p with buf := p.buf.pushAfterWait (some x), writing := none, log }
      { σ with items := items } := by
  constructor
  · exact h.unread
  · exact h.writeClosed
  · exact h.readClosed
  · exact h.aborted
  · exact fun hf => h.readFailed (setValue_failed hf)
  · exact h.writeFailed
  · rintro ⟨hr, hf⟩
    refine h.reading ⟨hr, fun hf' => hf ?_⟩
    show p.buf.notEmpty.map _ = _
    rw [hf']
    rfl
  · intro _ _ _
    exact List.append_ne_nil_of_right_ne_nil _ (List.cons_ne_nil _ _)
  · exact fun _ => hopen
  · exact h.deleted
  · intro hex
    obtain ⟨l, hl, hitems⟩ := hitems hex
    refine Or.inl ⟨l ++ [x], ?_, ?_⟩
    · show p.buf.q ++ [some x] = _
      rw [hl, List.map_append]
      rfl
    · rw [hitems]
      exact (List.append_nil _).symm

omit [DecidableEq T] in
/-- The writer is there, so the queue has only items. -/
theorem Inv.items (h : Inv p σ) (hopen : p.writeOpen = true) (hex : p.buf.ex = false) :
    ∃ l : List T, p.buf.q = l.map some ∧ σ.items = l ++ p.writing.toList := by
  rcases h.carries hex with hl | ⟨-, -, -, hclosed⟩
  · exact hl
  · rw [hopen] at hclosed
    exact absurd hclosed.symm Bool.false_ne_true

/-- `write`. -/
theorem Inv.write (h : Inv p σ) (hopen : p.writeOpen = true) (hwriting : p.writing = none) (x : T) :
    Accepted p σ (p.write x) := by
  rw [Pipe.write]
  by_cases hr : p.readOpen = true
  · have hex := h.live hr
    obtain ⟨l, hl, hitems⟩ := h.items hopen hex
    rw [hwriting, Option.toList_none, List.append_nil] at hitems
    have haccept : σ.accept (.wrote x) = some { σ with items := σ.items ++ [x] } := by
      rw [Stream.accept, h.writeClosed, hopen]
      rfl
    rw [writeable, if_pos hr]
    by_cases hfull : p.buf.full = true
    · have hwaits : p.buf.pushEventually (some x) = (.waits, p.buf.waitNotFull) := by
        simp [Queue.pushEventually, hex, hfull]
      have hwait : p.buf.waitNotFull = { p.buf with notFull := some .unresolved } := by
        simp [Queue.waitNotFull, hex, hfull]
      rw [hwaits, hwait]
      refine accepted_one rfl haccept ?_
      refine ⟨h.unread, h.writeClosed, h.readClosed, h.aborted, h.readFailed, fun hf => ?_,
        h.reading, h.woken, fun _ => hopen, h.deleted, fun _ => ?_⟩
      · cases hf
      · refine Or.inl ⟨l, hl, ?_⟩
        rw [hitems]
        rfl
    · have hdone : p.buf.pushEventually (some x) = (.done (), p.buf.pushAfterWait (some x)) := by
        simp [Queue.pushEventually, hex, hfull]
      have hpushed : p.buf.ex = false →
          ∃ l : List T, p.buf.q = l.map some ∧ σ.items ++ [x] = l ++ [x] :=
        fun _ => ⟨l, hl, by rw [hitems]⟩
      have hinv := h.push hopen hpushed (p.log ++ [.wrote x])
      rw [← hwriting] at hinv
      rw [hdone]
      exact accepted_one rfl haccept hinv
  · rw [writeable, if_neg hr]
    exact accepted_none rfl h

/-- The continuation of a write. -/
theorem Inv.writeResumes (h : Inv p σ) (hwriting : p.writing.isSome)
    (hresolved : Resolved p.buf.notFull) :
    ∃ p', p.writeResumes = .ok p' ∧ Accepted p σ p' := by
  obtain ⟨x, hx⟩ := Option.isSome_iff_exists.mp hwriting
  rw [Pipe.writeResumes, hx]
  rcases hresolved with hready | hfailed
  · have hopen : p.writeOpen = true := by
      apply h.writing ⟨hwriting, _⟩
      rw [hready]
      simp
    have hdeleted : p.deleted = false := by
      rw [h.deleted, hopen]
      simp
    rw [hready]
    dsimp only
    rw [hdeleted, if_neg Bool.false_ne_true]
    have hitems : p.buf.ex = false → ∃ l : List T, p.buf.q = l.map some ∧ σ.items = l ++ [x] := by
      intro hex
      have hitems := h.items hopen hex
      rwa [hx] at hitems
    have hinv := h.push hopen hitems p.log
    rw [hdeleted] at hinv
    exact ⟨_, rfl, accepted_none rfl hinv⟩
  · rw [hfailed]
    refine ⟨_, rfl, accepted_none rfl ?_⟩
    refine ⟨h.unread, h.writeClosed, h.readClosed, h.aborted, h.readFailed, h.writeFailed,
      h.reading, h.woken, fun hw => (Bool.false_ne_true hw.1).elim, h.deleted, fun hex => ?_⟩
    rw [h.writeFailed hfailed] at hex
    exact absurd hex.symm Bool.false_ne_true

/-! ## Closing -/

theorem not_failed_of_setException {f : Option Pending}
    (h : f.map Pending.setException ≠ some .failed) : f ≠ some .failed := by
  rintro rfl
  exact h rfl

/-- `~pipe_reader`. -/
theorem Inv.closeRead (h : Inv p σ) (hcareful : p.writeOpen = false → ¬ReadPending p) :
    Accepted p σ p.closeRead := by
  have hdeleted : p.writeOpen = true ∨ ¬ReadPending p := by
    cases hw : p.writeOpen with
    | true => exact Or.inl rfl
    | false => exact Or.inr (hcareful hw)
  refine accepted_one (τ := { σ with readClosed := true }) rfl rfl ?_
  have hdel : (!p.writeOpen) = (!false && !p.writeOpen) := rfl
  rw [Pipe.closeRead]
  by_cases hfull : p.buf.full = true
  · rw [if_pos hfull]
    refine ⟨h.unread, h.writeClosed, rfl, fun _ => rfl, fun _ => rfl, fun _ => rfl, fun hp => ?_,
      fun hex => (nomatch hex), fun hp => ?_, hdel, fun hex => (nomatch hex)⟩
    · have hpending : ReadPending p := ⟨hp.1, not_failed_of_setException hp.2⟩
      have hw := hdeleted.resolve_right (not_not_intro hpending)
      show (!p.writeOpen) = false
      rw [hw]
      rfl
    · exact h.writing ⟨hp.1, not_failed_of_setException hp.2⟩
  · rw [if_neg hfull]
    refine ⟨h.unread, h.writeClosed, rfl, fun _ => rfl, h.readFailed, h.writeFailed,
      fun hp => ?_, h.woken, h.writing, hdel, h.carries⟩
    have hw := hdeleted.resolve_right (not_not_intro hp)
    show (!p.writeOpen) = false
    rw [hw]
    rfl

/-- `~pipe_writer`. -/
theorem Inv.closeWrite (h : Inv p σ) (hwrite : ¬WritePending p)
    (hread : p.readOpen = false → ¬ReadPending p) : Accepted p σ p.closeWrite := by
  have hdeleted : p.readOpen = true ∨ ¬ReadPending p := by
    cases hr : p.readOpen with
    | true => exact Or.inl rfl
    | false => exact Or.inr (hread hr)
  have hdel : (!p.readOpen) = (!p.readOpen && !false) := (Bool.and_true _).symm
  have hwriting : p.buf.ex = false → p.writing = none := by
    intro hex
    by_contra hne
    exact hwrite (h.pending hex (Option.isSome_iff_ne_none.mpr hne))
  refine accepted_one (τ := { σ with writeClosed := true }) rfl rfl ?_
  rw [Pipe.closeWrite]
  by_cases hpush : p.buf.empty = true ∧ p.buf.q.length < p.buf.max
  · have heq : (p.buf.push none).2 =
        Queue.notifyNotEmpty { p.buf with q := p.buf.q ++ [none] } := by
      rw [Queue.push, if_pos hpush.2]
    have hnil : p.buf.q = [] := List.isEmpty_iff.mp hpush.1
    rw [if_pos hpush.1, heq, hnil]
    refine ⟨h.unread, rfl, h.readClosed, h.aborted, fun hf => h.readFailed (setValue_failed hf),
      h.writeFailed, fun hp => ?_, fun _ _ _ => List.cons_ne_nil _ _, fun hp => ?_, hdel,
      fun hex => ?_⟩
    · have hpending : ReadPending p := ⟨hp.1, fun hf => hp.2 (by
        show p.buf.notEmpty.map _ = _
        rw [hf]
        rfl)⟩
      show (!p.readOpen) = false
      rw [hdeleted.resolve_right (not_not_intro hpending)]
      rfl
    · exact absurd hp hwrite
    · have hnone := hwriting hex
      refine Or.inr ⟨rfl, ?_, hnone, rfl⟩
      have hcarries := h.carries hex
      rw [hnil, hnone] at hcarries
      rcases hcarries with ⟨l, hl, hitems⟩ | ⟨hl, -⟩
      · rw [hitems, List.map_eq_nil_iff.mp hl.symm]
        rfl
      · cases hl
  · have heq : (if p.buf.empty then (p.buf.push none).2 else p.buf) = p.buf := by
      split
      · rename_i hempty
        rw [Queue.push, if_neg fun hlt => hpush ⟨hempty, hlt⟩]
      · rfl
    rw [heq]
    refine ⟨h.unread, rfl, h.readClosed, h.aborted, h.readFailed, h.writeFailed, fun hp => ?_,
      h.woken, fun hp => absurd hp hwrite, hdel, fun hex => ?_⟩
    · show (!p.readOpen) = false
      rw [hdeleted.resolve_right (not_not_intro hp)]
      rfl
    · rcases h.carries hex with hl | ⟨hl, hitems, hnone, -⟩
      · exact Or.inl hl
      · exact Or.inr ⟨hl, hitems, hnone, rfl⟩

/-! ## Runs -/

/-- Every action of a careful use adds what the stream accepts. -/
theorem Inv.step (h : Inv p σ) {a : Action T} (hv : Valid p a) (hc : Careful p a) :
    ∃ p', step p a = .ok p' ∧ Accepted p σ p' := by
  cases a with
  | read => exact h.read hv.1 hv.2
  | readResumes => exact h.readResumes hv.1 hv.2
  | unread x => exact ⟨_, rfl, h.gaveBack x⟩
  | write x => exact ⟨_, rfl, h.write hv.1 hv.2 x⟩
  | writeResumes => exact h.writeResumes hv.1 hv.2
  | closeRead => exact ⟨_, rfl, h.closeRead hc⟩
  | closeWrite => exact ⟨_, rfl, h.closeWrite hc.1 hc.2⟩
  | moveReader =>
    have hnone : p.unread_ = none := hc
    have heq : p.moveReader = p := by
      rw [moveReader, ← hnone]
    exact ⟨_, rfl, accepted_none rfl (heq ▸ h)⟩
  | moveWriter => exact ⟨_, rfl, accepted_none rfl h⟩
  | assignReader => exact hc.elim
  | assignWriter => exact hc.elim

/-- The history is accepted. -/
def Delivers (p : Pipe T) : Prop := ∃ σ, Stream.accepts p.log = some σ ∧ Inv p σ

theorem Accepted.delivers (h : Accepted p σ p') (hlog : Stream.accepts p.log = some σ) :
    Delivers p' := by
  obtain ⟨events, σ', hevents, haccept, hinv⟩ := h
  refine ⟨σ', ?_, hinv⟩
  rw [Stream.accepts] at hlog ⊢
  rw [hevents, List.foldlM_append, hlog]
  exact haccept

/-- In every run in which the ends are used with care nothing goes wrong, and what was written is
read: each item once and in order, an item that was given back by the next read, and the end of
stream after the last item. -/
theorem run_delivers_in_order (size : Nat) (as : List (Action T))
    (hv : Run.Along step (fun p a => Valid p a ∧ Careful p a) (create size) as) :
    ∃ p, run (create size) as = .ok p ∧ (Stream.accepts p.log).isSome := by
  have hkeep : ∀ (p : Pipe T) a, Delivers p → Valid p a ∧ Careful p a →
      ∃ p', step p a = .ok p' ∧ Delivers p' := by
    rintro p a ⟨σ, hlog, h⟩ ⟨hva, hca⟩
    obtain ⟨p', hs, haccepted⟩ := h.step hva hca
    exact ⟨p', hs, haccepted.delivers hlog⟩
  obtain ⟨p, hr, σ, hlog, -⟩ := Run.run_ok hkeep ⟨{}, rfl, Inv.initial size⟩ hv
  refine ⟨p, hr, ?_⟩
  rw [hlog]
  rfl

/-- A full pipe, a read that waits, an item that is given back, and both ends closed. -/
theorem run_delivers_in_order_waiting :
    ∃ p, run (create 1) ([.write 1, .write 2, .read, .unread 1, .writeResumes, .read, .moveReader,
        .read, .read, .write 3, .readResumes, .closeWrite, .read, .read, .closeRead] :
        List (Action Nat)) = .ok p ∧ (Stream.accepts p.log).isSome :=
  run_delivers_in_order 1 _ (by decide +kernel)

/-- The reader is moved after an item was given back to it, and the next read returns another. -/
theorem moved_reader_loses_item :
    Run.Along step Valid (create 2) ([.write 1, .read, .unread 1, .moveReader, .write 2, .read] :
        List (Action Nat)) ∧
      ∃ p, run (create 2) ([.write 1, .read, .unread 1, .moveReader, .write 2, .read] :
          List (Action Nat)) = .ok p ∧
        p.log = [.wrote 1, .returned (some 1), .gaveBack 1, .wrote 2, .returned (some 2)] ∧
        Stream.accepts p.log = none :=
  ⟨by decide +kernel, _, rfl, rfl, rfl⟩

/-- The writer is destroyed before its second write goes on: the end of stream is read before the
item. -/
example : (run (create 1) ([.write 1, .write 2, .read, .closeWrite, .writeResumes, .read, .read] :
    List (Action Nat))).map Pipe.log = .ok [.wrote 1, .wrote 2, .returned (some 1), .closedWrite,
      .returned none, .returned (some 2)] := rfl

end Pipe

end Seastar
