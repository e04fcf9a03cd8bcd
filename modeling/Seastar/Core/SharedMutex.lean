import Mathlib
import Seastar.Core.Fault
import Seastar.Lib.Run

/-!
`shared_mutex` of `core/shared_mutex.hh`, as a state machine over the calls of
holders that unlock what they locked. The member `_readers` is an `unsigned`, so
the mutex keeps writers and readers apart as long as no more shared holders are
admitted than it can count.
-/

namespace Seastar

open Lib

/-- `shared_mutex::waiter`; the promise is named by the number of the call. -/
structure SharedMutex.Waiter where
  pr : Nat
  forWrite : Bool
  deriving DecidableEq, Repr

/-- `class shared_mutex`. -/
structure SharedMutex where
  readers : UInt32 := 0
  writer : Bool := false
  waiters : List SharedMutex.Waiter := []
  /-- history: the number of calls of `lock` and `lock_shared` -/
  calls : Nat := 0
  /-- history: the calls that were granted, oldest first -/
  granted : List SharedMutex.Waiter := []
  /-- history: the calls that hold the mutex -/
  holders : List SharedMutex.Waiter := []
  deriving DecidableEq, Repr

namespace SharedMutex

/-- A waiter becomes a holder. -/
def grant (w : Waiter) (m : SharedMutex) : SharedMutex :=
  { m with granted := m.granted ++ [w], holders := m.holders ++ [w] }

/-- `lock_shared`. -/
def lockShared (m : SharedMutex) : SharedMutex :=
  let w : Waiter := ⟨m.calls, false⟩
  let m := { m with calls := m.calls + 1 }
  if !m.writer && m.waiters.isEmpty then grant w { m with readers := m.readers + 1 }
  else { m with waiters := m.waiters ++ [w] }

/-- `lock`. -/
def lock (m : SharedMutex) : SharedMutex :=
  let w : Waiter := ⟨m.calls, true⟩
  let m := { m with calls := m.calls + 1 }
  if m.readers = 0 && !m.writer then grant w { m with writer := true }
  else { m with waiters := m.waiters ++ [w] }

/-- The loop of `wake`, over the waiters. -/
def wakeLoop (m : SharedMutex) : List Waiter → SharedMutex
  | [] => { m with waiters := [] }
  | w :: waiters =>
    if w.forWrite then
      if m.readers = 0 then grant w { m with writer := true, waiters := waiters }
      else { m with waiters := w :: waiters }
    else wakeLoop (grant w { m with readers := m.readers + 1 }) waiters

/-- `wake`. -/
def wake (m : SharedMutex) : SharedMutex := wakeLoop m m.waiters

/-- `unlock_shared`. -/
def unlockShared (m : SharedMutex) : SharedMutex := wake { m with readers := m.readers - 1 }

/-- `unlock`. -/
def unlock (m : SharedMutex) : SharedMutex := wake { m with writer := false }

/-- The calls; a holder is named by the call that admitted it. -/
inductive Action
  | lock
  | lockShared
  | unlock (holder : Nat)
  | unlockShared (holder : Nat)
  deriving DecidableEq, Repr

/-- The holder of a kind of access gives it back. -/
def leave (w : Waiter) (m : SharedMutex) : SharedMutex :=
  { m with holders := m.holders.filter (· ≠ w) }

/-- One call. -/
def step (m : SharedMutex) : Action → Except Fault SharedMutex
  | .lock => .ok m.lock
  | .lockShared => .ok m.lockShared
  | .unlock holder => .ok (unlock (m.leave ⟨holder, true⟩))
  | .unlockShared holder => .ok (unlockShared (m.leave ⟨holder, false⟩))

/-- The mutex after the calls, oldest first. -/
def run : SharedMutex → List Action → Except Fault SharedMutex := Run.run step

/-- Only a holder unlocks, and only what it holds. -/
def WellBehaved (m : SharedMutex) : Action → Prop
  | .unlock holder => ⟨holder, true⟩ ∈ m.holders
  | .unlockShared holder => ⟨holder, false⟩ ∈ m.holders
  | _ => True

/-- The number of shared holders. -/
def sharedHolders (m : SharedMutex) : Nat := (m.holders.filter fun w => !w.forWrite).length

/-- The waiters for shared access in front of the first one for exclusive access. -/
def nextReaders (ws : List Waiter) : List Waiter := ws.takeWhile fun w => !w.forWrite

/-- More shared holders are admitted than an `unsigned` counts. -/
def TooManyReaders (m : SharedMutex) : Action → Prop
  | .lockShared => m.writer = false ∧ m.waiters = [] ∧ 2 ^ 32 ≤ m.sharedHolders + 1
  | .unlock _ => 2 ^ 32 ≤ (nextReaders m.waiters).length
  | _ => False

instance (m : SharedMutex) (a : Action) : Decidable (WellBehaved m a) := by
  cases a <;> unfold WellBehaved <;> infer_instance

instance (m : SharedMutex) (a : Action) : Decidable (TooManyReaders m a) := by
  cases a <;> unfold TooManyReaders <;> infer_instance

/-! ## The invariant -/

/-- Calls are granted in their order. -/
structure Queued (m : SharedMutex) (waiters : List Waiter) : Prop where
  calls : (m.granted ++ waiters).Pairwise fun x y => x.pr < y.pr
  numbered : ∀ w ∈ m.granted ++ waiters, w.pr < m.calls
  holders : m.holders.Sublist m.granted

/-- The mutex is free of writers, and `_readers` counts the holders. -/
structure Shared (m : SharedMutex) : Prop where
  writer : m.writer = false
  holders : ∀ w ∈ m.holders, w.forWrite = false
  readers : m.readers.toNat = m.holders.length

/-- The mutex is held by one writer. -/
structure Exclusive (m : SharedMutex) : Prop where
  writer : m.writer = true
  holders : ∃ w, m.holders = [w] ∧ w.forWrite = true
  readers : m.readers = 0

/-- The front of the queue waits for a holder it cannot share with. -/
structure Blocked (m : SharedMutex) : Prop where
  held : m.waiters ≠ [] → m.holders ≠ []
  shared : ∀ w ∈ m.waiters.head?, w.forWrite = false → m.writer = true

/-- The invariant between calls. -/
structure Inv (m : SharedMutex) : Prop where
  queued : m.Queued m.waiters
  kinds : m.Shared ∨ m.Exclusive
  blocked : m.Blocked

variable {m : SharedMutex}

theorem sharedHolders_of_shared (h : m.Shared) : m.sharedHolders = m.holders.length := by
  rw [sharedHolders, List.filter_eq_self.mpr fun w hw => by rw [h.holders w hw]; rfl]

theorem Shared.readers_eq_zero (h : m.Shared) : m.readers = 0 ↔ m.holders = [] := by
  rw [← UInt32.toNat_inj, h.readers, UInt32.toNat_zero, List.length_eq_zero_iff]

theorem Inv.init : ({} : SharedMutex).Inv where
  queued := ⟨List.Pairwise.nil, by exact nofun, List.Sublist.refl _⟩
  kinds := Or.inl ⟨rfl, by exact nofun, rfl⟩
  blocked := ⟨fun h => absurd rfl h, by exact nofun⟩

/-- The next call is granted. -/
theorem Queued.grant {w : Waiter} {ws : List Waiter} (h : m.Queued (w :: ws)) (b : Bool)
    (r : UInt32) (ws' : List Waiter) :
    (grant w { m with writer := b, readers := r, waiters := ws' }).Queued ws where
  calls := by
    have := h.calls
    rwa [List.append_cons] at this
  numbered := by
    have := h.numbered
    rwa [List.append_cons] at this
  holders := h.holders.append (List.Sublist.refl [w])

theorem Shared.enter {w : Waiter} {ws : List Waiter} (h : m.Shared) (hw : w.forWrite = false)
    (hn : m.holders.length + 1 < 2 ^ 32) :
    (SharedMutex.grant w { m with readers := m.readers + 1, waiters := ws }).Shared where
  writer := h.writer
  holders v hv := by
    rcases List.mem_append.mp hv with hv | hv
    · exact h.holders v hv
    · rw [List.mem_singleton.mp hv]
      exact hw
  readers := by
    show (m.readers + 1).toNat = (m.holders ++ [w]).length
    rw [UInt32.toNat_add, h.readers, List.length_append]
    exact Nat.mod_eq_of_lt hn

theorem Shared.enterWriter {w : Waiter} {ws : List Waiter} (h : m.Shared) (h0 : m.readers = 0)
    (hw : w.forWrite = true) :
    (SharedMutex.grant w { m with writer := true, waiters := ws }).Exclusive where
  writer := rfl
  holders := by
    refine ⟨w, ?_, hw⟩
    show m.holders ++ [w] = [w]
    rw [h.readers_eq_zero.mp h0, List.nil_append]
  readers := h0

/-! ## Waking up -/

/-- The loop of `wake` admits readers up to the first writer, and that one when nobody
else holds the mutex. -/
theorem wakeLoop_spec {ws : List Waiter} (hq : m.Queued ws) (hs : m.Shared)
    (hn : m.holders.length + (nextReaders ws).length < 2 ^ 32) : (wakeLoop m ws).Inv := by
  induction ws generalizing m with
  | nil =>
    exact ⟨⟨hq.calls, hq.numbered, hq.holders⟩, Or.inl ⟨hs.writer, hs.holders, hs.readers⟩,
      ⟨fun h => absurd rfl h, by exact nofun⟩⟩
  | cons w ws ih =>
    rw [wakeLoop]
    by_cases hw : w.forWrite = true
    · rw [if_pos hw]
      by_cases h0 : m.readers = 0
      · rw [if_pos h0]
        have he : (grant w { m with writer := true, waiters := ws }).Exclusive :=
          hs.enterWriter h0 hw
        refine ⟨hq.grant true m.readers ws, Or.inr he, ⟨fun _ => ?_, fun _ _ _ => rfl⟩⟩
        obtain ⟨v, hv, -⟩ := he.holders
        rw [hv]
        exact List.cons_ne_nil _ _
      · rw [if_neg h0]
        refine ⟨⟨hq.calls, hq.numbered, hq.holders⟩, Or.inl ⟨hs.writer, hs.holders, hs.readers⟩,
          ⟨fun _ => fun h => h0 (hs.readers_eq_zero.mpr h), ?_⟩⟩
        rintro v ⟨⟩ hv
        rw [hw] at hv
        cases hv
    · rw [Bool.not_eq_true] at hw
      have hlen : (nextReaders (w :: ws)).length = (nextReaders ws).length + 1 := by
        rw [nextReaders, List.takeWhile_cons, hw]
        rfl
      rw [hlen] at hn
      rw [if_neg (by rw [hw]; exact Bool.false_ne_true)]
      refine ih (hq.grant m.writer (m.readers + 1) m.waiters) (hs.enter hw (by omega)) ?_
      show (m.holders ++ [w]).length + (nextReaders ws).length < 2 ^ 32
      rw [List.length_append, List.length_singleton]
      omega

/-! ## One call -/

/-- A new call is the last one. -/
theorem Queued.push {ws : List Waiter} (h : m.Queued ws) (b : Bool) (ws' : List Waiter) :
    ({ m with calls := m.calls + 1, waiters := ws' } : SharedMutex).Queued (ws ++ [⟨m.calls, b⟩]) where
  calls := by
    show (m.granted ++ (ws ++ [(⟨m.calls, b⟩ : Waiter)])).Pairwise _
    rw [← List.append_assoc]
    refine List.pairwise_append.mpr ⟨h.calls, List.pairwise_singleton _ _, fun x hx y hy => ?_⟩
    rw [List.mem_singleton.mp hy]
    exact h.numbered x hx
  numbered x hx := by
    have hx : x ∈ m.granted ++ (ws ++ [⟨m.calls, b⟩]) := hx
    rw [← List.append_assoc] at hx
    rcases List.mem_append.mp hx with hx | hx
    · exact Nat.lt_succ_of_lt (h.numbered x hx)
    · rw [List.mem_singleton.mp hx]
      exact Nat.lt_succ_self _
  holders := h.holders

/-- A call that has to wait goes to the end of the queue. -/
theorem Inv.wait (h : m.Inv) (b : Bool) (h0 : m.waiters = [] → m.holders ≠ [])
    (h1 : m.waiters = [] → b = false → m.writer = true) :
    ({ m with calls := m.calls + 1, waiters := m.waiters ++ [⟨m.calls, b⟩] } : SharedMutex).Inv where
  queued := h.queued.push b _
  kinds := h.kinds.imp (fun h => ⟨h.writer, h.holders, h.readers⟩)
    fun h => ⟨h.writer, h.holders, h.readers⟩
  blocked := by
    refine ⟨fun _ => ?_, fun w hw hb => ?_⟩
    · by_cases he : m.waiters = []
      · exact h0 he
      · exact h.blocked.held he
    · have hw : w ∈ (m.waiters ++ [(⟨m.calls, b⟩ : Waiter)]).head? := hw
      rcases he : m.waiters with _ | ⟨v, ws⟩
      · rw [he] at hw
        obtain rfl := Option.some.inj hw
        exact h1 he hb
      · rw [he] at hw
        exact h.blocked.shared w (by rw [he]; exact hw) hb

theorem lockShared_spec (h : m.Inv) (hn : ¬ TooManyReaders m .lockShared) : m.lockShared.Inv := by
  unfold lockShared
  simp only
  split
  · rename_i hc
    rw [Bool.and_eq_true, Bool.not_eq_true', List.isEmpty_iff] at hc
    have hs : m.Shared := by
      rcases h.kinds with hs | he
      · exact hs
      · rw [he.writer] at hc
        cases hc.1
    have hlt : m.holders.length + 1 < 2 ^ 32 := by
      rw [← sharedHolders_of_shared hs]
      exact Nat.lt_of_not_le fun hle => hn ⟨hc.1, hc.2, hle⟩
    have hq := h.queued.push false m.waiters
    rw [hc.2] at hq
    have hs' : ({ m with calls := m.calls + 1, waiters := [] } : SharedMutex).Shared :=
      ⟨hs.writer, hs.holders, hs.readers⟩
    rw [hc.2]
    refine ⟨hq.grant m.writer (m.readers + 1) [], Or.inl (hs'.enter rfl hlt),
      ⟨fun hw => absurd rfl hw, by exact nofun⟩⟩
  · rename_i hc
    have hc : ¬ ((!m.writer && m.waiters.isEmpty) = true) := hc
    have hw : m.waiters = [] → m.writer = true := by
      intro he
      rw [he] at hc
      simpa using hc
    refine h.wait false (fun he => ?_) (fun he _ => hw he)
    rcases h.kinds with hs | hx
    · rw [hs.writer] at hw
      cases hw he
    · obtain ⟨w, hw, -⟩ := hx.holders
      rw [hw]
      exact List.cons_ne_nil _ _

theorem lock_spec (h : m.Inv) : m.lock.Inv := by
  unfold lock
  simp only
  split
  · rename_i hc
    rw [Bool.and_eq_true, Bool.not_eq_true', decide_eq_true_eq] at hc
    have hs : m.Shared := by
      rcases h.kinds with hs | he
      · exact hs
      · rw [he.writer] at hc
        cases hc.2
    -- nobody holds the mutex, so nobody waits
    have hw : m.waiters = [] := by
      by_contra hne
      exact h.blocked.held hne (hs.readers_eq_zero.mp hc.1)
    have hq := h.queued.push true m.waiters
    rw [hw] at hq
    rw [hw]
    have hs' : ({ m with calls := m.calls + 1, waiters := [] } : SharedMutex).Shared :=
      ⟨hs.writer, hs.holders, hs.readers⟩
    refine ⟨hq.grant true m.readers [], Or.inr (hs'.enterWriter hc.1 rfl),
      ⟨fun hw => absurd rfl hw, by exact nofun⟩⟩
  · rename_i hc
    refine h.wait true (fun _ he => hc ?_) (fun _ hb => by cases hb)
    rcases h.kinds with hs | hx
    · rw [Bool.and_eq_true, Bool.not_eq_true', decide_eq_true_eq]
      exact ⟨hs.readers_eq_zero.mpr he, hs.writer⟩
    · obtain ⟨w, hw, -⟩ := hx.holders
      rw [he] at hw
      cases hw

theorem unlock_spec {holder : Nat} (h : m.Inv) (hb : WellBehaved m (.unlock holder))
    (hn : ¬ TooManyReaders m (.unlock holder)) : (unlock (m.leave ⟨holder, true⟩)).Inv := by
  have hx : m.Exclusive := by
    rcases h.kinds with hs | hx
    · have := hs.holders _ hb
      cases this
    · exact hx
  obtain ⟨w, hw, -⟩ := hx.holders
  have hwb : (⟨holder, true⟩ : Waiter) = w := by
    have hmem : (⟨holder, true⟩ : Waiter) ∈ m.holders := hb
    rw [hw] at hmem
    exact List.mem_singleton.mp hmem
  have hempty : m.holders.filter (· ≠ ⟨holder, true⟩) = [] := by
    rw [hw, hwb]
    simp
  refine wakeLoop_spec ⟨h.queued.calls, h.queued.numbered, ?_⟩ ⟨rfl, ?_, ?_⟩ ?_
  · exact List.filter_sublist.trans h.queued.holders
  · show ∀ v ∈ m.holders.filter (· ≠ ⟨holder, true⟩), _
    rw [hempty]
    exact nofun
  · show m.readers.toNat = (m.holders.filter (· ≠ ⟨holder, true⟩)).length
    rw [hempty, hx.readers]
    rfl
  · show (m.holders.filter (· ≠ ⟨holder, true⟩)).length + (nextReaders m.waiters).length < 2 ^ 32
    rw [hempty, List.length_nil, Nat.zero_add]
    exact Nat.lt_of_not_le hn

/-- A holder that leaves is counted once. -/
theorem length_leave {w : Waiter} (h : m.Inv) (hw : w ∈ m.holders) :
    (m.holders.filter (· ≠ w)).length + 1 = m.holders.length := by
  have hnd : m.holders.Nodup := by
    have hg := (List.pairwise_append.mp h.queued.calls).1.sublist h.queued.holders
    exact hg.imp fun {a b} hab he => by
      rw [he] at hab
      exact Nat.lt_irrefl _ hab
  have he : m.holders.filter (· ≠ w) = m.holders.erase w := by
    rw [hnd.erase_eq_filter]
    refine List.filter_congr fun v _ => ?_
    by_cases hv : v = w
    · simp [hv]
    · simp [hv]
  rw [he, List.length_erase_of_mem hw]
  have := List.length_pos_of_mem hw
  omega

theorem unlockShared_spec {holder : Nat} (h : m.Inv) (hb : WellBehaved m (.unlockShared holder)) :
    (unlockShared (m.leave ⟨holder, false⟩)).Inv := by
  have hs : m.Shared := by
    rcases h.kinds with hs | hx
    · exact hs
    · obtain ⟨w, hw, hwr⟩ := hx.holders
      have hmem : (⟨holder, false⟩ : Waiter) ∈ m.holders := hb
      rw [hw] at hmem
      rw [← List.mem_singleton.mp hmem] at hwr
      cases hwr
  have hlen := length_leave h hb
  have hlt := m.readers.toNat_lt
  rw [hs.readers] at hlt
  -- the front of the queue waits for exclusive access
  have hnone : nextReaders m.waiters = [] := by
    have hbl := h.blocked.shared
    generalize m.waiters = l at hbl ⊢
    rcases l with _ | ⟨w, ws⟩
    · rfl
    · rw [nextReaders, List.takeWhile_cons]
      cases hwr : w.forWrite with
      | true => rfl
      | false =>
        have := hbl w rfl hwr
        rw [hs.writer] at this
        cases this
  refine wakeLoop_spec ⟨h.queued.calls, h.queued.numbered, ?_⟩ ⟨hs.writer, ?_, ?_⟩ ?_
  · exact List.filter_sublist.trans h.queued.holders
  · exact fun v hv => hs.holders v (List.mem_of_mem_filter hv)
  · show (m.readers - 1).toNat = (m.holders.filter (· ≠ ⟨holder, false⟩)).length
    rw [UInt32.toNat_sub, hs.readers]
    show (2 ^ 32 - 1 + m.holders.length) % 2 ^ 32 = _
    omega
  · show (m.holders.filter (· ≠ ⟨holder, false⟩)).length + (nextReaders m.waiters).length < 2 ^ 32
    rw [hnone, List.length_nil]
    omega

theorem step_spec {a : Action} {t : SharedMutex} (h : m.Inv)
    (ha : WellBehaved m a ∧ ¬ TooManyReaders m a) (ht : step m a = .ok t) : t.Inv := by
  cases a with
  | lock =>
    obtain rfl := Except.ok.inj ht
    exact lock_spec h
  | lockShared =>
    obtain rfl := Except.ok.inj ht
    exact lockShared_spec h ha.2
  | unlock holder =>
    obtain rfl := Except.ok.inj ht
    exact unlock_spec h ha.1 ha.2
  | unlockShared holder =>
    obtain rfl := Except.ok.inj ht
    exact unlockShared_spec h ha.1

/-! ## Runs -/

/-- A writer holds the mutex alone. -/
def Excludes (m : SharedMutex) : Prop :=
  ∀ w ∈ m.holders, w.forWrite = true → m.holders = [w]

theorem Inv.excludes (h : m.Inv) : m.Excludes := by
  intro w hw hwr
  rcases h.kinds with hs | hx
  · rw [hs.holders w hw] at hwr
    cases hwr
  · obtain ⟨v, hv, -⟩ := hx.holders
    rw [hv] at hw ⊢
    rw [List.mem_singleton.mp hw]

/-- No waiter is stuck: somebody holds the mutex, and a writer does when the front of the
queue waits for shared access. -/
def NoneStuck (m : SharedMutex) : Prop :=
  (m.waiters ≠ [] → m.holders ≠ []) ∧
    ∀ w ∈ m.waiters.head?, w.forWrite = false → ∃ v ∈ m.holders, v.forWrite = true

theorem Inv.noneStuck (h : m.Inv) : m.NoneStuck := by
  refine ⟨h.blocked.held, fun w hw hwr => ?_⟩
  rcases h.kinds with hs | hx
  · have := h.blocked.shared w hw hwr
    rw [hs.writer] at this
    cases this
  · obtain ⟨v, hv, hvw⟩ := hx.holders
    exact ⟨v, by rw [hv]; exact List.mem_cons_self, hvw⟩

/-- In every run of calls by well-behaved holders in which no more shared holders are
admitted than an `unsigned` counts: in every state a writer holds the mutex alone, calls
were granted in their order, and no waiter is stuck. -/
theorem run_excludes (as : List Action)
    (h : Run.Along step (fun m a => WellBehaved m a ∧ ¬ TooManyReaders m a) {} as)
    (pre post : List Action) (has : as = pre ++ post) (hpre : run {} pre = .ok m) :
    m.Excludes ∧ m.granted.Pairwise (fun x y => x.pr < y.pr) ∧ m.NoneStuck := by
  subst has
  have hm : m.Inv := Run.run_inv (fun m a t hm ha ht => step_spec hm ha ht) .init h.of_append hpre
  exact ⟨hm.excludes, (List.pairwise_append.mp hm.queued.calls).1, hm.noneStuck⟩

/-- A reader, a writer that waits for it, and a reader behind the writer. -/
theorem run_excludes_turns : ∃ m, run {} [.lockShared, .lock, .lockShared, .unlockShared 0] = .ok m ∧
    m.Excludes ∧ m.granted.Pairwise (fun x y => x.pr < y.pr) ∧ m.NoneStuck :=
  ⟨_, rfl, run_excludes [.lockShared, .lock, .lockShared, .unlockShared 0] (by decide)
    [.lockShared, .lock, .lockShared, .unlockShared 0] [] rfl rfl⟩

/-- Readers alone are always admitted. -/
theorem run_lockShared (n : Nat) : ∃ m, run {} (List.replicate n .lockShared) = .ok m ∧
    m.readers = UInt32.ofNat n ∧ m.writer = false ∧ m.waiters = [] ∧ m.holders.length = n ∧
    ∀ w ∈ m.holders, w.forWrite = false := by
  induction n with
  | zero => exact ⟨{}, rfl, rfl, rfl, rfl, rfl, by exact nofun⟩
  | succ n ih =>
    obtain ⟨m, hm, hr, hw, he, hl, hf⟩ := ih
    refine ⟨grant ⟨m.calls, false⟩ { m with calls := m.calls + 1, readers := m.readers + 1 }, ?_,
      ?_, hw, he, ?_, ?_⟩
    · rw [List.replicate_succ', run, Run.run_append]
      have hm' : Run.run step {} (List.replicate n .lockShared) = .ok m := hm
      rw [hm', ok_bind, Run.run_cons]
      have hs : step m .lockShared =
          .ok (grant ⟨m.calls, false⟩ { m with calls := m.calls + 1, readers := m.readers + 1 }) := by
        rw [step, lockShared]
        simp only [hw, he, Bool.not_false, List.isEmpty_nil, Bool.and_self, if_true]
      rw [hs]
      rfl
    · show m.readers + 1 = UInt32.ofNat (n + 1)
      rw [hr, UInt32.ofNat_add]
      rfl
    · show (m.holders ++ [_]).length = n + 1
      rw [List.length_append, hl]
      rfl
    · intro w hw
      rcases List.mem_append.mp hw with hw | hw
      · exact hf w hw
      · rw [List.mem_singleton.mp hw]

/-- After 2³² readers `_readers` is 0 again, and a writer is admitted to them. -/
theorem run_lockShared_overflow :
    ∃ m, run {} (List.replicate (2 ^ 32) .lockShared ++ [.lock]) = .ok m ∧ ¬ m.Excludes := by
  obtain ⟨m, hm, hr, hw, he, hl, hf⟩ := run_lockShared (2 ^ 32)
  have hm' : Run.run step {} (List.replicate (2 ^ 32) .lockShared) = .ok m := hm
  have h0 : m.readers = 0 := by
    rw [hr]
    rfl
  refine ⟨m.lock, ?_, ?_⟩
  · rw [run, Run.run_append, hm', ok_bind, Run.run_cons]
    rfl
  · have hl' : m.lock.holders = m.holders ++ [⟨m.calls, true⟩] := by
      rw [lock]
      simp only [h0, hw, Bool.not_false, decide_true, Bool.and_self, if_true]
      rfl
    intro hx
    have := hx ⟨m.calls, true⟩ (by rw [hl']; exact List.mem_append_right _ List.mem_cons_self) rfl
    rw [hl'] at this
    have hlen := congrArg List.length this
    rw [List.length_append, hl, List.length_singleton] at hlen
    omega

end SharedMutex

end Seastar
