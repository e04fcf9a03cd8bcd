import Seastar.Core.FairQueue
import Seastar.Lib.PriorityQueue

/-!
What the requests of a `fair_queue` cost their classes. The costs are rational numbers
here, so that no sum is infinite; when the accumulated costs are normalized is left open,
and so is the factor by which the cost of a request has grown since the time base.
-/

namespace Seastar

open Lib

/-- The part of `class priority_class` that decides which class is served. -/
structure Account where
  shares : UInt32 := 1
  accumulated : ℚ≥0 := 0

/-- `class fair_queue` with `_all_classes`. The handles are listed in the order of the heap. -/
structure CostQueue (ι : Type) where
  fq : FairQueue ι
  accounts : ι → Account := fun _ => {}
  allClasses : List ι := []
  /-- history: the classes served, with the cost of each request as it was added -/
  served : List (ι × ℚ≥0) := []

namespace CostQueue

variable {ι : Type} [DecidableEq ι]

/-- `_accumulated`. -/
def accumulated (q : CostQueue ι) (pc : ι) : ℚ≥0 := (q.accounts pc).accumulated

/-- Changes the account of one class. -/
def update (pc : ι) (a : Account) (q : CostQueue ι) : CostQueue ι :=
  { q with accounts := Function.update q.accounts pc a }

/-- The class that was pushed moves behind those that have cost less, and behind some of those that
have cost the same. -/
def sift (behind : Nat) (q : CostQueue ι) : CostQueue ι :=
  match q.fq.handles with
  | [] => q
  | pc :: rest =>
    { q with fq := { q.fq with handles := PriorityQueue.push q.accumulated pc behind rest } }

/-- `normalize_factor`: the least normal `float`. -/
def normalizeFactor : ℚ≥0 := 1 / 2 ^ 126

/-- `normalize_stats`. -/
def normalizeStats (q : CostQueue ι) : CostQueue ι :=
  { q with accounts := fun pc =>
      if pc ∈ q.allClasses then
        { q.accounts pc with accumulated := (q.accounts pc).accumulated * normalizeFactor }
      else q.accounts pc }

/-- `register_priority_class`, which makes a new class. -/
def registerPriorityClass (pc : ι) (shares : UInt32) (q : CostQueue ι) : CostQueue ι :=
  { q with allClasses := pc :: q.allClasses }.update pc { shares := max shares 1 }

/-- `unregister_priority_class`. -/
def unregisterPriorityClass (pc : ι) (q : CostQueue ι) : Except Fault (CostQueue ι) :=
  if (q.fq.classes pc).queue.isEmpty then
    .ok { q with allClasses := q.allClasses.filter (· ≠ pc) }
  else .error .assertFailed

/-- `update_shares`. -/
def updateShares (pc : ι) (shares : UInt32) (q : CostQueue ι) : CostQueue ι :=
  q.update pc { q.accounts pc with shares := max shares 1 }

/-- What the clock tells: how often the sum is infinite, and the growth of the costs since the time
base when it is not. -/
structure Clock where
  normalized : Nat := 0
  growth : ℚ≥0 := 1

/-- `req_cost` of `dispatch_requests`. -/
def reqCost (config : FairQueueConfig) (shares : UInt32) (desc : RequestDescriptor) : ℚ≥0 :=
  ((desc.weight.toNat : ℚ≥0) / config.maxReqCount.toNat +
    (desc.size.toNat : ℚ≥0) / config.maxBytesCount.toNat) / shares.toNat

/-- The top of the heap. -/
def first (pc : ι) : FairQueue.Top ι := ⟨fun l => l.headD pc, fun
  | [], h => absurd rfl h
  | _ :: _, _ => List.mem_cons_self⟩

/-- The loop of `dispatch_requests` for a request of the class `pc` that has left its queue. -/
def charge (pc : ι) (desc : RequestDescriptor) (clock : Clock) (q : CostQueue ι) : CostQueue ι :=
  let q := normalizeStats^[clock.normalized] q
  let cost := clock.growth * reqCost q.fq.config (q.accounts pc).shares desc
  { q with served := q.served ++ [(pc, cost)] }.update pc
    { q.accounts pc with accumulated := q.accumulated pc + cost }

/-- A round of `dispatch_requests`. The function of the request runs after it and may do anything,
before there is another round. -/
def dispatchRequest (clock : Clock) (behind : Nat) (q : CostQueue ι) :
    Except Fault (CostQueue ι) :=
  if q.fq.canDispatch then
    match q.fq.handles with
    | [] => .error .assertFailed
    | pc :: _ => do
      let (h, req, fq) ← q.fq.dispatchNext (first pc)
      .ok (({ q with fq }.charge h req.desc clock).sift behind)
  else .ok q

/-- What can happen to a queue. -/
inductive Action (ι : Type)
  | registerPriorityClass (pc : ι) (shares : UInt32)
  | unregisterPriorityClass (pc : ι)
  | updateShares (pc : ι) (shares : UInt32)
  | queue (pc : ι) (req : Request) (behind : Nat)
  | notifyRequestsFinished (desc : RequestDescriptor)
  | dispatchRequest (clock : Clock) (behind : Nat)

/-- One action. -/
def step (q : CostQueue ι) : Action ι → Except Fault (CostQueue ι)
  | .registerPriorityClass pc shares => .ok (q.registerPriorityClass pc shares)
  | .unregisterPriorityClass pc => q.unregisterPriorityClass pc
  | .updateShares pc shares => .ok (q.updateShares pc shares)
  | .queue pc req behind => .ok ({ q with fq := q.fq.queue pc req }.sift behind)
  | .notifyRequestsFinished desc => .ok { q with fq := q.fq.notifyRequestsFinished desc }
  | .dispatchRequest clock behind => q.dispatchRequest clock behind

/-- The queue after the actions, oldest first. -/
def run : CostQueue ι → List (Action ι) → Except Fault (CostQueue ι) := Run.run step

/-- A class that is registered is new, and requests are queued in registered classes. -/
def Valid (q : CostQueue ι) : Action ι → Prop
  | .registerPriorityClass pc _ => pc ∉ q.allClasses
  | .queue pc _ _ => pc ∈ q.allClasses
  | _ => True

instance (q : CostQueue ι) (a : Action ι) : Decidable (Valid q a) := by
  cases a <;> unfold Valid <;> infer_instance

/-- The class has requests that wait. -/
def Backlogged (q : CostQueue ι) (pc : ι) : Prop := (q.fq.classes pc).queue ≠ []

instance (q : CostQueue ι) (pc : ι) : Decidable (Backlogged q pc) := by
  unfold Backlogged
  exact decidable_of_iff ((q.fq.classes pc).queue.isEmpty = false) (by simp)

/-- How far two classes are apart. -/
def gap (q : CostQueue ι) (a b : ι) : ℚ := |(q.accumulated a : ℚ) - q.accumulated b|

/-- The largest cost. -/
def largest (served : List (ι × ℚ≥0)) : ℚ≥0 := (served.map Prod.snd).foldr max 0

variable {q q' : CostQueue ι} {pc : ι}

/-! ## Accounts -/

@[simp] theorem accumulated_update_self (pc : ι) (a : Account) (q : CostQueue ι) :
    (q.update pc a).accumulated pc = a.accumulated := by
  simp [update, accumulated]

theorem accumulated_update_ne {d : ι} (h : d ≠ pc) (a : Account) (q : CostQueue ι) :
    (q.update pc a).accumulated d = q.accumulated d := by
  simp [update, accumulated, h]

/-- Normalization is a scaling of the classes that are registered. -/
theorem accumulated_normalizeStats (h : pc ∈ q.allClasses) :
    q.normalizeStats.accumulated pc = q.accumulated pc * normalizeFactor := by
  simp [normalizeStats, accumulated, h]

theorem normalizeFactor_le_one : normalizeFactor ≤ 1 := by
  rw [normalizeFactor]
  exact div_le_one_of_le₀ (one_le_pow₀ one_le_two) zero_le

/-- What normalization does not touch. -/
structure SameQueue (q q' : CostQueue ι) : Prop where
  fq : q'.fq = q.fq
  allClasses : q'.allClasses = q.allClasses
  served : q'.served = q.served

theorem iterate_same (n : Nat) (q : CostQueue ι) : SameQueue q (normalizeStats^[n] q) := by
  induction n generalizing q with
  | zero => exact ⟨rfl, rfl, rfl⟩
  | succ n ih =>
    have h := ih q.normalizeStats
    exact ⟨h.fq, h.allClasses, h.served⟩

/-- All registered classes are scaled by one factor. -/
theorem accumulated_iterate (n : Nat) (h : pc ∈ q.allClasses) :
    (normalizeStats^[n] q).accumulated pc = q.accumulated pc * normalizeFactor ^ n := by
  induction n generalizing q with
  | zero => simp
  | succ n ih =>
    rw [Function.iterate_succ_apply, ih (q := q.normalizeStats) h, accumulated_normalizeStats h,
      mul_assoc, ← pow_succ']

/-! ## The heap -/

/-- The classes with requests are in the heap, in the order of what they have cost, and they are
registered. -/
structure Fair (q : CostQueue ι) : Prop where
  handled : FairQueue.Handled q.fq
  ordered : PriorityQueue.Ordered q.accumulated q.fq.handles
  registered : ∀ pc ∈ q.fq.handles, pc ∈ q.allClasses

omit [DecidableEq ι] in
theorem Fair.mem_handles (h : Fair q) : pc ∈ q.fq.handles ↔ Backlogged q pc :=
  h.handled.waiting pc

omit [DecidableEq ι] in
/-- The top of the heap has cost least. -/
theorem Fair.head_le (h : Fair q) {rest : List ι} (hh : q.fq.handles = pc :: rest) {d : ι}
    (hd : Backlogged q d) : q.accumulated pc ≤ q.accumulated d := by
  have hord := h.ordered
  have hmem := h.mem_handles.mpr hd
  rw [hh] at hord hmem
  exact hord.head_le hmem

omit [DecidableEq ι] in
theorem handled_perm {fq : FairQueue ι} {l : List ι} (h : FairQueue.Handled fq)
    (hl : l.Perm fq.handles) : FairQueue.Handled { fq with handles := l } where
  nodup := hl.nodup_iff.mpr h.nodup
  flag pc := (h.flag pc).trans hl.mem_iff.symm
  waiting pc := hl.mem_iff.trans (h.waiting pc)

omit [DecidableEq ι] in
theorem sift_handles (behind : Nat) (q : CostQueue ι) :
    (q.sift behind).fq.handles.Perm q.fq.handles := by
  rw [sift]
  split
  · exact List.Perm.refl _
  · rename_i pc rest hh
    rw [hh]
    exact PriorityQueue.push_perm _ _ _ _

omit [DecidableEq ι] in
/-- What `sift` does not touch. -/
theorem sift_same (behind : Nat) (q : CostQueue ι) : (q.sift behind).accounts = q.accounts ∧
    (q.sift behind).allClasses = q.allClasses ∧ (q.sift behind).served = q.served ∧
    (q.sift behind).fq.classes = q.fq.classes := by
  rw [sift]
  split <;> exact ⟨rfl, rfl, rfl, rfl⟩

omit [DecidableEq ι] in
theorem sift_accumulated (behind : Nat) (q : CostQueue ι) :
    (q.sift behind).accumulated = q.accumulated := by
  funext pc
  rw [accumulated, (sift_same behind q).1]
  rfl

omit [DecidableEq ι] in
/-- The class that was pushed finds its place among the others. -/
theorem fair_sift (behind : Nat) (hhandled : FairQueue.Handled q.fq)
    (hordered : PriorityQueue.Ordered q.accumulated q.fq.handles.tail)
    (hregistered : ∀ pc ∈ q.fq.handles, pc ∈ q.allClasses) : Fair (q.sift behind) where
  handled := by
    have hperm := sift_handles behind q
    rw [sift] at hperm ⊢
    split at hperm
    · exact hhandled
    · exact handled_perm hhandled hperm
  ordered := by
    rw [sift_accumulated, sift]
    split
    · rename_i hnil
      rw [hnil]
      exact List.Pairwise.nil
    · rename_i pc rest hh
      rw [hh] at hordered
      exact hordered.push pc behind
  registered pc hpc := by
    rw [(sift_same behind q).2.1]
    exact hregistered pc ((sift_handles behind q).mem_iff.mp hpc)

/-! ## One round -/

/-- The class on top of the heap is popped. -/
theorem popWaiting_first {fq : FairQueue ι} (h : FairQueue.Handled fq) {rest : List ι}
    (hh : fq.handles = pc :: rest) :
    FairQueue.popWaiting (first pc) (fq.handles.length + 1) fq =
      .ok (pc, FairQueue.update pc { fq.classes pc with queued := false }
        { fq with handles := rest }) := by
  have hmem : pc ∈ fq.handles := by
    rw [hh]
    exact List.mem_cons_self
  have hpop : fq.popPriorityClass (first pc) =
      .ok (pc, FairQueue.update pc { fq.classes pc with queued := false }
        { fq with handles := rest }) := by
    have hflag := (h.flag pc).mpr hmem
    rw [FairQueue.popPriorityClass, hh]
    simp [first, hflag]
  have hqueue := (h.waiting pc).mp hmem
  rw [FairQueue.popWaiting, hpop, ok_bind]
  simp [hqueue]

/-- The class on top of the heap is served, and is pushed again if it has more requests. -/
theorem dispatchNext_first {fq : FairQueue ι} (h : FairQueue.Handled fq) {rest : List ι}
    (hh : fq.handles = pc :: rest) :
    ∃ req fq', fq.dispatchNext (first pc) = .ok (pc, req, fq') ∧
      FairQueue.Dispatched fq pc req fq' ∧ (fq'.handles = rest ∨ fq'.handles = pc :: rest) := by
  have hne : fq.handles ≠ [] := by
    rw [hh]
    exact List.cons_ne_nil _ _
  obtain ⟨d, req, fq', he, hdispatched⟩ := h.dispatchNext hne (first pc)
  have hnext := he
  rw [FairQueue.dispatchNext, popWaiting_first h hh, ok_bind] at hnext
  dsimp only at hnext
  rw [FairQueue.update_self] at hnext
  dsimp only at hnext
  split at hnext
  · cases hnext
  · rename_i req' reqs hq
    cases hnext
    refine ⟨req, _, he, hdispatched, ?_⟩
    split
    · exact Or.inl rfl
    · right
      rw [FairQueue.pushPriorityClass]
      simp

variable {clock : Clock} {behind : Nat}

/-- All classes are scaled by one factor, and then the cost is added to the class served. -/
theorem charge_accumulated (desc : RequestDescriptor) (clock : Clock) (hpc : pc ∈ q.allClasses) :
    ∃ cost, (q.charge pc desc clock).served = q.served ++ [(pc, cost)] ∧
      ∀ d ∈ q.allClasses, (q.charge pc desc clock).accumulated d =
        q.accumulated d * normalizeFactor ^ clock.normalized + if d = pc then cost else 0 := by
  have hsame := iterate_same clock.normalized q
  refine ⟨clock.growth * reqCost q.fq.config
      ((normalizeStats^[clock.normalized] q).accounts pc).shares desc, ?_, ?_⟩
  · rw [charge]
    dsimp only
    rw [hsame.fq, ← hsame.served]
    rfl
  · intro d hd
    rw [charge]
    dsimp only
    rw [hsame.fq]
    by_cases h : d = pc
    · subst h
      rw [accumulated_update_self, accumulated_iterate _ hd, if_pos rfl]
    · rw [accumulated_update_ne h, if_neg h, add_zero]
      exact accumulated_iterate _ hd

theorem charge_same (pc : ι) (desc : RequestDescriptor) (clock : Clock) (q : CostQueue ι) :
    (q.charge pc desc clock).fq = q.fq ∧ (q.charge pc desc clock).allClasses = q.allClasses := by
  have hsame := iterate_same clock.normalized q
  exact ⟨hsame.fq, hsame.allClasses⟩

/-- What a round of `dispatch_requests` does: a class that has cost least is served. -/
structure Served (q : CostQueue ι) (pc : ι) (cost factor : ℚ≥0) (q' : CostQueue ι) : Prop where
  backlogged : Backlogged q pc
  least : ∀ d, Backlogged q d → q.accumulated pc ≤ q.accumulated d
  served : q'.served = q.served ++ [(pc, cost)]
  factor_le : factor ≤ 1
  accumulated : ∀ d, Backlogged q d →
    q'.accumulated d = q.accumulated d * factor + if d = pc then cost else 0

theorem Fair.dispatchRequest (h : Fair q) (hd : q.fq.canDispatch = true)
    (he : q.dispatchRequest clock behind = .ok q') :
    Fair q' ∧ ∃ pc cost factor, Served q pc cost factor q' := by
  rw [CostQueue.dispatchRequest, if_pos hd] at he
  split at he
  · cases he
  · rename_i pc rest hh
    obtain ⟨req, fq', hnext, hdispatched, hrest⟩ := dispatchNext_first h.handled hh
    rw [hnext, ok_bind] at he
    obtain rfl := Except.ok.inj he
    have hmem : ∀ d ∈ pc :: rest, d ∈ q.allClasses := hh ▸ h.registered
    have hpc : pc ∈ q.allClasses := hmem pc List.mem_cons_self
    obtain ⟨cost, hserved, hacc⟩ :=
      charge_accumulated (q := { q with fq := fq' }) req.desc clock hpc
    obtain ⟨hfq, hclasses⟩ := charge_same pc req.desc clock { q with fq := fq' }
    have hsift := sift_same behind (charge pc req.desc clock { q with fq := fq' })
    -- the classes that stay in the heap are only scaled
    have hordered : PriorityQueue.Ordered
        (charge pc req.desc clock { q with fq := fq' }).accumulated rest := by
      have hrest' : PriorityQueue.Ordered q.accumulated rest := by
        have hord := h.ordered.tail
        rwa [hh] at hord
      have hnodup := h.handled.nodup
      rw [hh, List.nodup_cons] at hnodup
      have hscaled : ∀ d ∈ rest, (charge pc req.desc clock { q with fq := fq' }).accumulated d =
          q.accumulated d * normalizeFactor ^ clock.normalized := by
        intro d hd
        rw [hacc d (hmem d (List.mem_cons_of_mem _ hd)), if_neg, add_zero]
        · rfl
        · rintro rfl
          exact hnodup.1 hd
      apply hrest'.congr
      intro x hx y hy hle
      rw [hscaled x hx, hscaled y hy]
      exact mul_le_mul_left hle _
    constructor
    · apply fair_sift
      · rw [hfq]
        exact hdispatched.handled
      · rw [hfq]
        rcases hrest with hrest | hrest
        · rw [hrest]
          exact hordered.tail
        · rw [hrest]
          exact hordered
      · rw [hfq, hclasses]
        intro d hd
        rcases hrest with hrest | hrest
        · exact hmem d (List.mem_cons_of_mem _ (hrest ▸ hd))
        · exact hmem d (hrest ▸ hd)
    · refine ⟨pc, cost, normalizeFactor ^ clock.normalized, ?_, ?_, ?_, ?_, ?_⟩
      · rw [← h.mem_handles, hh]
        exact List.mem_cons_self
      · intro d hd
        exact h.head_le hh hd
      · rw [hsift.2.2.1]
        exact hserved
      · exact pow_le_one₀ zero_le normalizeFactor_le_one
      · intro d hd
        rw [sift_accumulated]
        exact hacc d (h.registered d (h.mem_handles.mpr hd))

/-! ## Runs -/

omit [DecidableEq ι] in
theorem Fair.initial (config : FairQueueConfig) : Fair ({ fq := { config } } : CostQueue ι) where
  handled :=
    ⟨List.nodup_nil,
      fun _ => ⟨fun h => (Bool.false_ne_true h).elim, fun h => absurd h List.not_mem_nil⟩,
      fun _ => ⟨fun h => absurd h List.not_mem_nil, fun h => (h rfl).elim⟩⟩
  ordered := List.Pairwise.nil
  registered _ h := absurd h List.not_mem_nil

/-- The accounts of the classes that wait stay the same. -/
structure Untouched (q q' : CostQueue ι) : Prop where
  served : q'.served = q.served
  accumulated : ∀ d, Backlogged q d → q'.accumulated d = q.accumulated d

omit [DecidableEq ι] in
theorem Fair.congr (h : Fair q) (hhandles : q'.fq.handles = q.fq.handles)
    (hclasses : q'.fq.classes = q.fq.classes)
    (hacc : ∀ d, Backlogged q d → q'.accumulated d = q.accumulated d)
    (hregistered : ∀ d, Backlogged q d → d ∈ q'.allClasses) : Fair q' where
  handled := by
    constructor
    · rw [hhandles]
      exact h.handled.nodup
    · rw [hhandles, hclasses]
      exact h.handled.flag
    · rw [hhandles, hclasses]
      exact h.handled.waiting
  ordered := by
    rw [hhandles]
    apply h.ordered.congr
    intro x hx y hy hle
    rwa [hacc x (h.mem_handles.mp hx), hacc y (h.mem_handles.mp hy)]
  registered d hd := hregistered d (h.mem_handles.mp (hhandles ▸ hd))

/-- A class that is registered, and has requests, keeps its account when another is changed. -/
theorem accumulated_update_backlogged (a : Account) {d : ι} (hpc : ¬Backlogged q pc)
    (hd : Backlogged q d) : (q.update pc a).accumulated d = q.accumulated d := by
  apply accumulated_update_ne
  rintro rfl
  exact hpc hd

theorem Fair.queue (h : Fair q) (hpc : pc ∈ q.allClasses) (req : Request) :
    Fair ({ q with fq := q.fq.queue pc req }.sift behind) ∧
      Untouched q ({ q with fq := q.fq.queue pc req }.sift behind) := by
  have hmem : ∀ d, d ∈ (q.fq.queue pc req).handles ↔ d = pc ∨ d ∈ q.fq.handles :=
    fun _ => FairQueue.mem_push h.handled.flagged
  constructor
  · apply fair_sift
    · exact h.handled.queue pc req
    · show PriorityQueue.Ordered q.accumulated (q.fq.pushPriorityClass pc).handles.tail
      rw [FairQueue.pushPriorityClass]
      split
      · exact h.ordered.tail
      · exact h.ordered
    · intro d hd
      rcases (hmem d).mp hd with rfl | hd
      · exact hpc
      · exact h.registered d hd
  · constructor
    · exact (sift_same behind _).2.2.1
    · intro d _
      rw [sift_accumulated]
      rfl

/-- Every action keeps the heap, and serves a class that has cost least or touches no account of a
class that waits. -/
theorem Fair.step (h : Fair q) {a : Action ι} (hv : Valid q a) (hs : step q a = .ok q') :
    Fair q' ∧ (Untouched q q' ∨ ∃ pc cost factor, Served q pc cost factor q') := by
  cases a with
  | registerPriorityClass pc shares =>
    obtain rfl := Except.ok.inj hs
    have hpc : ¬Backlogged q pc := fun hb => hv (h.registered pc (h.mem_handles.mpr hb))
    have hacc : ∀ d, Backlogged q d →
        (q.registerPriorityClass pc shares).accumulated d = q.accumulated d :=
      fun d hd => accumulated_update_backlogged (q := { q with allClasses := _ }) _ hpc hd
    refine ⟨h.congr rfl rfl hacc ?_, Or.inl ⟨rfl, hacc⟩⟩
    intro d hd
    exact List.mem_cons_of_mem _ (h.registered d (h.mem_handles.mpr hd))
  | unregisterPriorityClass pc =>
    rw [CostQueue.step, unregisterPriorityClass] at hs
    split at hs
    · rename_i hempty
      obtain rfl := Except.ok.inj hs
      refine ⟨h.congr rfl rfl (fun _ _ => rfl) ?_, Or.inl ⟨rfl, fun _ _ => rfl⟩⟩
      intro d hd
      have hne : d ≠ pc := by
        rintro rfl
        exact hd (List.isEmpty_iff.mp hempty)
      simp [h.registered d (h.mem_handles.mpr hd), hne]
    · cases hs
  | updateShares pc shares =>
    obtain rfl := Except.ok.inj hs
    have hacc : ∀ d, (q.updateShares pc shares).accumulated d = q.accumulated d := by
      intro d
      by_cases hd : d = pc
      · subst hd
        exact accumulated_update_self ..
      · exact accumulated_update_ne hd ..
    refine ⟨h.congr rfl rfl (fun d _ => hacc d) ?_, Or.inl ⟨rfl, fun d _ => hacc d⟩⟩
    exact fun d hd => h.registered d (h.mem_handles.mpr hd)
  | queue pc req behind =>
    obtain rfl := Except.ok.inj hs
    exact (h.queue hv req).imp_right Or.inl
  | notifyRequestsFinished desc =>
    obtain rfl := Except.ok.inj hs
    refine ⟨h.congr rfl rfl (fun _ _ => rfl) ?_, Or.inl ⟨rfl, fun _ _ => rfl⟩⟩
    exact fun d hd => h.registered d (h.mem_handles.mpr hd)
  | dispatchRequest clock behind =>
    by_cases hd : q.fq.canDispatch = true
    · obtain ⟨hfair, hserved⟩ := h.dispatchRequest hd hs
      exact ⟨hfair, Or.inr hserved⟩
    · rw [CostQueue.step, CostQueue.dispatchRequest, if_neg hd] at hs
      obtain rfl := Except.ok.inj hs
      exact ⟨h, Or.inl ⟨rfl, fun _ _ => rfl⟩⟩

/-! ## The gap between two classes -/

theorem abs_sub_scaled (x y : ℚ) {k : ℚ} (hk : 0 ≤ k) (hk' : k ≤ 1) :
    |x * k - y * k| ≤ |x - y| := by
  rw [← sub_mul, abs_mul, abs_of_nonneg hk]
  exact mul_le_of_le_one_right (abs_nonneg _) hk'

/-- The smaller of two numbers grows by a cost after both are scaled down. -/
theorem abs_sub_charged {x y k c : ℚ} (hk : 0 ≤ k) (hk' : k ≤ 1) (hc : 0 ≤ c) (hle : x ≤ y) :
    |x * k + c - y * k| ≤ max |x - y| c := by
  have hscaled := abs_sub_scaled x y hk hk'
  have hmul : x * k ≤ y * k := mul_le_mul_of_nonneg_right hle hk
  have hlower := neg_abs_le (x * k - y * k)
  apply abs_le.mpr
  constructor
  · have := le_max_left |x - y| c
    linarith
  · have := le_max_right |x - y| c
    linarith

/-- Serving a class that has cost least leaves no larger gap than there was, or than the cost. -/
theorem Served.gap_le {cost factor : ℚ≥0} (h : Served q pc cost factor q') {a b : ι}
    (ha : Backlogged q a) (hb : Backlogged q b) : gap q' a b ≤ max (gap q a b) cost := by
  have hk : (0 : ℚ) ≤ factor := factor.coe_nonneg
  have hk' : (factor : ℚ) ≤ 1 := mod_cast h.factor_le
  have hc : (0 : ℚ) ≤ cost := cost.coe_nonneg
  have hscaled := abs_sub_scaled (q.accumulated a) (q.accumulated b) hk hk'
  rw [gap, gap, h.accumulated a ha, h.accumulated b hb]
  by_cases hpa : a = pc
  · by_cases hpb : b = pc
    · rw [if_pos hpa, if_pos hpb, hpa, hpb, sub_self, sub_self, abs_zero]
      exact le_max_left _ _
    · have hle : (q.accumulated a : ℚ) ≤ q.accumulated b := mod_cast hpa ▸ h.least b hb
      rw [if_pos hpa, if_neg hpb, add_zero]
      push_cast
      exact abs_sub_charged hk hk' hc hle
  · by_cases hpb : b = pc
    · have hle : (q.accumulated b : ℚ) ≤ q.accumulated a := mod_cast hpb ▸ h.least a ha
      rw [if_neg hpa, if_pos hpb, add_zero, abs_sub_comm, abs_sub_comm (q.accumulated a : ℚ)]
      push_cast
      exact abs_sub_charged hk hk' hc hle
    · rw [if_neg hpa, if_neg hpb, add_zero, add_zero]
      push_cast
      exact le_max_of_le_left hscaled

omit [DecidableEq ι] in
theorem largest_cons (x : ι × ℚ≥0) (xs : List (ι × ℚ≥0)) :
    largest (x :: xs) = max x.2 (largest xs) := rfl

omit [DecidableEq ι] in
theorem largest_append (xs ys : List (ι × ℚ≥0)) :
    largest (xs ++ ys) = max (largest xs) (largest ys) := by
  induction xs with
  | nil => simp [largest]
  | cons x xs ih =>
    rw [List.cons_append, largest_cons, largest_cons, ih, max_assoc]

omit [DecidableEq ι] in
theorem Untouched.gap_eq (h : Untouched q q') {a b : ι} (ha : Backlogged q a)
    (hb : Backlogged q b) : gap q' a b = gap q a b := by
  rw [gap, gap, h.accumulated a ha, h.accumulated b hb]

/-- One action while two classes wait. -/
theorem Fair.step_gap (h : Fair q) {x : Action ι} {a b : ι} (hv : Valid q x)
    (ha : Backlogged q a) (hb : Backlogged q b) (hs : CostQueue.step q x = .ok q') :
    ∃ served, q'.served = q.served ++ served ∧ gap q' a b ≤ max (gap q a b) (largest served) := by
  obtain ⟨-, hsame | ⟨pc, cost, factor, hserved⟩⟩ := h.step hv hs
  · refine ⟨[], by rw [hsame.served, List.append_nil], ?_⟩
    rw [hsame.gap_eq ha hb]
    exact le_max_left _ _
  · refine ⟨[(pc, cost)], hserved.served, ?_⟩
    have hcost : largest [(pc, cost)] = cost := by simp [largest]
    rw [hcost]
    exact hserved.gap_le ha hb

/-- A run in which two classes wait all the time. -/
theorem Fair.run_gap (h : Fair q) {as : List (Action ι)} {a b : ι}
    (hv : Run.Along CostQueue.step (fun t x => Valid t x ∧ Backlogged t a ∧ Backlogged t b) q as)
    (hr : run q as = .ok q') :
    ∃ served, q'.served = q.served ++ served ∧ gap q' a b ≤ max (gap q a b) (largest served) := by
  induction as generalizing q with
  | nil =>
    obtain rfl := Except.ok.inj hr
    exact ⟨[], by rw [List.append_nil], le_max_left _ _⟩
  | cons x as ih =>
    obtain ⟨t, ht, hr⟩ := Run.run_cons_ok.mp hr
    obtain ⟨hvx, ha, hb⟩ := hv.1
    obtain ⟨xs, hxs, hgap⟩ := h.step_gap hvx ha hb ht
    obtain ⟨ys, hys, hgap'⟩ := ih (h.step hvx ht).1 (hv.2 t ht) hr
    refine ⟨xs ++ ys, by rw [hys, hxs, List.append_assoc], ?_⟩
    rw [largest_append, NNRat.cast_max, ← max_assoc]
    exact le_trans hgap' (max_le_max_right _ hgap)

/-- In every state of every run a class is served that has cost least among those that wait; and
over any stretch after it in which two classes wait all the time, the gap between them is not
larger than it was, or than the largest cost of a request served. -/
theorem run_fair (config : FairQueueConfig) (as : List (Action ι))
    (hv : Run.Along step Valid ({ fq := { config } } : CostQueue ι) as)
    (hr : run { fq := { config } } as = .ok q) :
    (∀ clock behind q', q.fq.canDispatch = true → step q (.dispatchRequest clock behind) = .ok q' →
      ∃ pc cost, q'.served = q.served ++ [(pc, cost)] ∧ Backlogged q pc ∧
        ∀ d, Backlogged q d → q.accumulated pc ≤ q.accumulated d) ∧
    ∀ bs q' a b,
      Run.Along step (fun t x => Valid t x ∧ Backlogged t a ∧ Backlogged t b) q bs →
      run q bs = .ok q' →
        ∃ served, q'.served = q.served ++ served ∧
          gap q' a b ≤ max (gap q a b) (largest served) := by
  have hfair : Fair q := Run.run_inv (fun _ _ _ h hvx hs => (h.step hvx hs).1)
    (Fair.initial config) hv hr
  constructor
  · intro clock behind q' hd hs
    obtain ⟨-, pc, cost, factor, h⟩ := hfair.dispatchRequest hd hs
    exact ⟨pc, cost, h.served, h.backlogged, h.least⟩
  · intro bs q' a b hbs hr'
    exact hfair.run_gap hbs hr'

/-- Two classes, the second with twice the shares, and a normalization. -/
theorem run_fair_normalized :
    ∃ q q' : CostQueue Bool, run { fq := { config := {} } }
        [.registerPriorityClass false 1, .registerPriorityClass true 2, .queue false ⟨0, {}⟩ 0,
          .queue false ⟨1, {}⟩ 0, .queue true ⟨2, {}⟩ 0, .queue true ⟨3, {}⟩ 1] = .ok q ∧
      run q [.dispatchRequest {} 1, .notifyRequestsFinished {},
        .dispatchRequest { normalized := 1, growth := 3 } 0] = .ok q' ∧
      ∃ served, q'.served = q.served ++ served ∧
        gap q' false true ≤ max (gap q false true) (largest served) := by
  have hr := eq_ok_get (x := run ({ fq := { config := {} } } : CostQueue Bool)
    [.registerPriorityClass false 1, .registerPriorityClass true 2, .queue false ⟨0, {}⟩ 0,
      .queue false ⟨1, {}⟩ 0, .queue true ⟨2, {}⟩ 0, .queue true ⟨3, {}⟩ 1]) (by decide +kernel)
  refine ⟨_, _, hr, eq_ok_get (by decide +kernel), ?_⟩
  exact (run_fair {} _ (by decide +kernel) hr).2 _ _ false true (by decide +kernel) (eq_ok_get _)

end CostQueue

end Seastar
