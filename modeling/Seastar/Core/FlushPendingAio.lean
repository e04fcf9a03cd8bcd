import Seastar.Core.PendingAio

/-!
The loop of `flush_pending_aio` against a kernel that judges a control block by itself and its
nowait flag. `EINVAL` and `EOPNOTSUPP` are taken to be about the flag: the block stays first in the
list without it. A block that is refused without the flag as well stays there for ever.
-/

namespace Seastar

open Lib

namespace Reactor

/-- What the kernel says of the first block of a batch. -/
inductive Verdict
  | accept
  | einval
  | eopnotsupp
  | ebadf
  deriving DecidableEq, Repr

namespace Verdict

/-- The verdicts that the handler takes for those on a nowait flag. -/
def Refused (v : Verdict) : Prop := v = einval ∨ v = eopnotsupp

instance (v : Verdict) : Decidable v.Refused := inferInstanceAs (Decidable (_ ∨ _))

/-- The result of `io_submit`: of blocks whose first is accepted, one and `count` more are. -/
def result (count : Nat) : Verdict → SubmitResult
  | accept => .accepted (count + 1)
  | einval => .failed .einval
  | eopnotsupp => .failed .eopnotsupp
  | ebadf => .failed .ebadf

end Verdict

variable {ι : Type} [DecidableEq ι]

def nowait (s : Reactor ι) (iocb : Nat) : Bool := (s.iocbPool iocb).nowait

/-- One turn of the loop, or none when nothing is pending. -/
def flushTurn (verdict : Nat → Bool → Verdict) (s : Reactor ι) (count : Nat) :
    Except Fault (Reactor ι) :=
  match s.pendingAio with
  | [] => .ok s
  | iocb :: _ => s.flushOnce ((verdict iocb (s.nowait iocb)).result count)

/-- The loop ends: after some turns nothing is pending. -/
def FlushEnds (verdict : Nat → Bool → Verdict) (counts : Nat → Nat) (s : Reactor ι) : Prop :=
  ∃ n t, Run.run (flushTurn verdict) s ((List.range n).map counts) = .ok t ∧ t.pendingAio = []

/-- The blocks that are pending have been given their descriptions. -/
def Described (s : Reactor ι) : Prop :=
  ∀ iocb ∈ s.pendingAio, ∃ desc, (s.iocbPool iocb).data = some desc ∧
    desc.ioq < s.ioQueues.length

/-- A block that is refused as it is, and without its nowait flag. -/
def Stuck (verdict : Nat → Bool → Verdict) (s : Reactor ι) (iocb : Nat) : Prop :=
  (verdict iocb (s.nowait iocb)).Refused ∧ (verdict iocb false).Refused

variable {verdict : Nat → Bool → Verdict} {s t : Reactor ι} {iocb : Nat} {rest : List Nat}

omit [DecidableEq ι] in
theorem Described.of_same {u : Reactor ι} (h : Described s)
    (hdata : ∀ b, (u.iocbPool b).data = (s.iocbPool b).data)
    (hlen : u.ioQueues.length = s.ioQueues.length)
    (hsub : ∀ b ∈ u.pendingAio, b ∈ s.pendingAio) : Described u := by
  intro b hb
  rw [hdata, hlen]
  exact h b (hsub b hb)

/-- A first block that is refused stays the first, without its flag. -/
theorem flushOnce_refused (hs : s.pendingAio = iocb :: rest) {ec : AioErrno}
    (hec : ec = .einval ∨ ec = .eopnotsupp) :
    s.flushOnce (.failed ec) =
      .ok ({ s with aioNowaitSupported := false }.setNowait iocb false) := by
  rcases hec with rfl | rfl <;>
    simp [flushOnce, hs, nrConsumed, handleAioError, ioSubmit, SubmitResult.count, setNowait]

omit [DecidableEq ι] in
theorem ioSubmit_failed (iocbs : List Nat) (ec : AioErrno) :
    s.ioSubmit iocbs (.failed ec) = s := by
  simp [ioSubmit, SubmitResult.count]

/-- A first block with a bad file descriptor is finished. -/
theorem flushOnce_ebadf {desc : IoDesc} {config : IoQueue.Config} {q : FairQueue.State ι}
    (hs : s.pendingAio = iocb :: rest) (hdata : (s.iocbPool iocb).data = some desc)
    (hq : s.ioQueues[desc.ioq]? = some (config, q)) :
    s.flushOnce (.failed .ebadf) =
      .ok { finished iocb desc config q s with pendingAio := rest } := by
  simp only [flushOnce, ioSubmit_failed, hs, nrConsumed, handleAioError,
    finishRequest_eq hdata hq, ok_bind, finished, reduceCtorEq, if_false, List.drop_succ_cons,
    List.drop_zero]

theorem flushOnce_accepted (hs : s.pendingAio = iocb :: rest) (n : Nat) :
    s.flushOnce (.accepted (n + 1)) = .ok { s with
      kernel := s.kernel ++ iocb :: rest.take (min n rest.length)
      pendingAio := rest.drop (min n rest.length) } := by
  simp [flushOnce, hs, nrConsumed, ioSubmit, SubmitResult.count]

/-- What a turn does to the list and to the flags: it consumes blocks from the first on, or takes the
flag of the first. -/
def Turned (verdict : Nat → Bool → Verdict) (iocb : Nat) (rest : List Nat) (count : Nat)
    (s t : Reactor ι) : Prop :=
  ¬ (verdict iocb (s.nowait iocb)).Refused ∧ t.nowait = s.nowait ∧
      (∃ k, t.pendingAio = rest.drop k ∧ (count = 0 → k = 0)) ∨
    (verdict iocb (s.nowait iocb)).Refused ∧ t.nowait = Function.update s.nowait iocb false ∧
      t.pendingAio = iocb :: rest

theorem flushTurn_ok (verdict : Nat → Bool → Verdict) (h : Described s)
    (hs : s.pendingAio = iocb :: rest) (count : Nat) :
    ∃ t, flushTurn verdict s count = .ok t ∧ Described t ∧ Turned verdict iocb rest count s t := by
  have hturn : flushTurn verdict s count =
      s.flushOnce ((verdict iocb (s.nowait iocb)).result count) := by rw [flushTurn, hs]
  have hnowait : ∀ u : Reactor ι, (u.setNowait iocb false).nowait =
      Function.update u.nowait iocb false := by
    intro u
    funext b
    by_cases hb : b = iocb
    · simp [nowait, setNowait, hb]
    · simp [nowait, setNowait, hb]
  have hrefused : ∀ ec, ec = .einval ∨ ec = .eopnotsupp →
      ∃ t, s.flushOnce (.failed ec) = .ok t ∧ Described t ∧ t.pendingAio = iocb :: rest ∧
        t.nowait = Function.update s.nowait iocb false := by
    intro ec hec
    have hsame := unsupported_same iocb s
    refine ⟨_, flushOnce_refused hs hec, ?_, hs, hnowait _⟩
    exact h.of_same hsame.data (by rw [hsame.ioQueues]) fun b hb => hb
  cases hv : verdict iocb (s.nowait iocb) with
  | accept =>
    have hstep := flushOnce_accepted hs count
    refine ⟨_, (hturn.trans (by rw [hv]; rfl)).trans hstep, ?_,
      Or.inl ⟨?_, rfl, min count rest.length, rfl, ?_⟩⟩
    · refine h.of_same (fun _ => rfl) rfl fun b hb => ?_
      rw [hs]
      exact List.mem_cons_of_mem _ (List.mem_of_mem_drop hb)
    · rw [hv]
      decide
    · rintro rfl
      exact Nat.zero_min _
  | einval =>
    obtain ⟨t, ht, hdescribed, hpending, hflags⟩ := hrefused .einval (Or.inl rfl)
    refine ⟨t, by rw [hturn, hv]; exact ht, hdescribed, Or.inr ⟨?_, hflags, hpending⟩⟩
    rw [hv]
    exact Or.inl rfl
  | eopnotsupp =>
    obtain ⟨t, ht, hdescribed, hpending, hflags⟩ := hrefused .eopnotsupp (Or.inr rfl)
    refine ⟨t, by rw [hturn, hv]; exact ht, hdescribed, Or.inr ⟨?_, hflags, hpending⟩⟩
    rw [hv]
    exact Or.inr rfl
  | ebadf =>
    obtain ⟨desc, hdata, hlt⟩ := h iocb (by rw [hs]; exact List.mem_cons_self)
    have hstep := flushOnce_ebadf hs hdata (List.getElem?_eq_getElem hlt)
    refine ⟨_, (hturn.trans (by rw [hv]; rfl)).trans hstep, ?_,
      Or.inl ⟨?_, rfl, 0, rfl, fun _ => rfl⟩⟩
    · refine h.of_same (fun _ => rfl) ?_ fun b hb => ?_
      · simp [finished]
      · rw [hs]
        exact List.mem_cons_of_mem _ hb
    · rw [hv]
      decide

/-- How many turns the loop can take: as many as blocks are pending or are refused as they are. -/
def flushMeasure (verdict : Nat → Bool → Verdict) (s : Reactor ι) : Nat :=
  s.pendingAio.length + s.pendingAio.countP fun b => (verdict b (s.nowait b)).Refused

omit [DecidableEq ι] in
/-- A block that is not stuck is not while it is pending, and one that is stays it. -/
theorem Turned.stuck_iff {count b : Nat} (h : Turned verdict iocb rest count s t) :
    Stuck verdict t b ↔ Stuck verdict s b := by
  rcases h with ⟨-, hflags, -⟩ | ⟨hrefused, hflags, -⟩
  · rw [Stuck, hflags]
    exact Iff.rfl
  · rw [Stuck, Stuck, hflags]
    by_cases hb : b = iocb
    · subst hb
      rw [Function.update_self]
      exact ⟨fun hs => ⟨hrefused, hs.2⟩, fun hs => ⟨hs.2, hs.2⟩⟩
    · rw [Function.update_of_ne hb]

omit [DecidableEq ι] in
theorem Turned.subset {count b : Nat} (h : Turned verdict iocb rest count s t)
    (hb : b ∈ t.pendingAio) : b ∈ iocb :: rest := by
  rcases h with ⟨-, -, k, hpending, -⟩ | ⟨-, -, hpending⟩
  · exact List.mem_cons_of_mem _ (List.mem_of_mem_drop (hpending ▸ hb))
  · exact hpending ▸ hb

omit [DecidableEq ι] in
/-- A turn brings the loop closer to its end, unless its first block is stuck. -/
theorem Turned.measure_lt {count : Nat} (h : Turned verdict iocb rest count s t)
    (hs : s.pendingAio = iocb :: rest) (hstuck : ¬ Stuck verdict s iocb) :
    flushMeasure verdict t < flushMeasure verdict s := by
  rw [flushMeasure, flushMeasure, hs]
  rcases h with ⟨-, hflags, k, hpending, -⟩ | ⟨hrefused, hflags, hpending⟩
  · have hsub : (rest.drop k).Sublist (iocb :: rest) :=
      (List.drop_sublist k rest).trans (List.sublist_cons_self _ _)
    have hcount := hsub.countP_le (p := fun b => (verdict b (s.nowait b)).Refused)
    have hlength := (List.drop_sublist k rest).length_le
    rw [hpending, hflags, List.length_cons]
    omega
  · have hfalse : ¬ (verdict iocb false).Refused := fun hv => hstuck ⟨hrefused, hv⟩
    have hrest : (rest.countP fun b => (verdict b (t.nowait b)).Refused) ≤
        rest.countP fun b => (verdict b (s.nowait b)).Refused := by
      refine List.countP_mono_left fun b _ hb => ?_
      rw [hflags] at hb
      by_cases hb' : b = iocb
      · subst hb'
        rw [Function.update_self] at hb
        exact absurd (of_decide_eq_true hb) hfalse
      · rwa [Function.update_of_ne hb'] at hb
    have hfirst : ¬ decide (verdict iocb (t.nowait iocb)).Refused = true := by
      rw [hflags, Function.update_self]
      simpa using hfalse
    rw [hpending, List.countP_cons, List.countP_cons, if_neg hfirst, if_pos (by simpa using hrefused)]
    omega

/-- The loop ends when no pending block is stuck. -/
theorem flush_ends (h : Described s) (hstuck : ∀ b ∈ s.pendingAio, ¬ Stuck verdict s b)
    (counts : Nat → Nat) : FlushEnds verdict counts s := by
  refine Run.run_reaches (I := fun s => Described s ∧ ∀ b ∈ s.pendingAio, ¬ Stuck verdict s b)
    (flushMeasure verdict) ?_ ⟨h, hstuck⟩ counts
  rintro s count ⟨h, hstuck⟩ hne
  obtain ⟨iocb, rest, hs⟩ := List.exists_cons_of_ne_nil hne
  obtain ⟨t, ht, hdescribed, hturned⟩ := flushTurn_ok verdict h hs count
  rw [hs] at hstuck
  refine ⟨t, ht, ⟨hdescribed, ?_⟩, hturned.measure_lt hs (hstuck iocb List.mem_cons_self)⟩
  intro b hb
  rw [hturned.stuck_iff]
  exact hstuck b (hturned.subset hb)

/-- A stuck block stays pending while the kernel accepts no more than one block at a time. -/
theorem stuck_stays (verdict : Nat → Bool → Verdict) (h : Described s)
    (hb : iocb ∈ s.pendingAio) (hstuck : Stuck verdict s iocb) :
    ¬ FlushEnds verdict (fun _ => 0) s := by
  rintro ⟨n, t, hrun, hnil⟩
  have hzero : Run.Along (flushTurn verdict) (fun _ i => i = 0) s
      ((List.range n).map fun _ => 0) := by
    apply Run.Along.of_mem
    intro i hi _
    obtain ⟨-, -, rfl⟩ := List.mem_map.mp hi
    rfl
  have hkeeps : ∀ (s : Reactor ι) i u,
      (Described s ∧ iocb ∈ s.pendingAio ∧ Stuck verdict s iocb) → i = 0 →
      flushTurn verdict s i = .ok u →
      Described u ∧ iocb ∈ u.pendingAio ∧ Stuck verdict u iocb := by
    rintro s i u ⟨h, hb, hstuck⟩ rfl hu
    obtain ⟨first, rest, hs⟩ := List.exists_cons_of_ne_nil (List.ne_nil_of_mem hb)
    obtain ⟨t, ht, hdescribed, hturned⟩ := flushTurn_ok verdict h hs 0
    obtain rfl := Except.ok.inj (ht.symm.trans hu)
    refine ⟨hdescribed, ?_, hturned.stuck_iff.mpr hstuck⟩
    rw [hs] at hb
    rcases hturned with ⟨haccepted, -, k, hpending, hk⟩ | ⟨-, -, hpending⟩
    · rw [hpending, hk rfl, List.drop_zero]
      refine (List.mem_cons.mp hb).resolve_left ?_
      rintro rfl
      exact haccepted hstuck.1
    · rwa [hpending]
  have hlast := Run.run_inv hkeeps ⟨h, hb, hstuck⟩ hzero hrun
  rw [hnil] at hlast
  exact absurd hlast.2.1 List.not_mem_nil

/-- The loop ends against every kernel with these verdicts, however many blocks it accepts at a time,
exactly when no pending block is refused both as it is and without its nowait flag. -/
theorem flush_ends_iff (verdict : Nat → Bool → Verdict) (s : Reactor ι) (h : Described s) :
    (∀ counts, FlushEnds verdict counts s) ↔ ∀ b ∈ s.pendingAio, ¬ Stuck verdict s b := by
  constructor
  · intro hends b hb hstuck
    exact stuck_stays verdict h hb hstuck (hends fun _ => 0)
  · intro hstuck counts
    exact flush_ends h hstuck counts

/-- Two blocks that are pending, the second with a bad file descriptor. -/
def twoPending : Reactor Unit :=
  { init [{}] with
    iocbPool := fun _ => { nowait := true, data := some ⟨0, ⟨0, {}⟩⟩ }
    pendingAio := [0, 1] }

theorem flush_ends_badf :
    (∀ counts, FlushEnds (fun b _ => if b = 0 then .accept else .ebadf) counts twoPending) ↔
      ∀ b ∈ [0, 1], ¬ Stuck (fun b _ => if b = 0 then .accept else .ebadf) twoPending b :=
  flush_ends_iff _ twoPending fun _ _ => ⟨_, rfl, by decide⟩

/-- A kernel that refuses a block whatever its flag is keeps the loop running. -/
theorem flush_spins : ¬ ∀ (verdict : Nat → Bool → Verdict) (s : Reactor Unit), Described s →
    ∀ counts, FlushEnds verdict counts s := by
  intro hends
  have h : Described twoPending := fun _ _ => ⟨_, rfl, by decide⟩
  refine stuck_stays (fun _ _ => .einval) h (List.mem_cons_self) ?_ (hends _ _ h _)
  exact ⟨Or.inl rfl, Or.inl rfl⟩

end Reactor

end Seastar
