import Seastar.Core.PendingAio

/-!
No control block is lost and none is in two places: each action moves blocks from one place to
another, has a request take a free one or frees the one of a request that it resolves.
-/

namespace Seastar

open Lib

namespace Reactor

variable {ι : Type} [DecidableEq ι] {s t : Reactor ι} {iocb : Nat} {desc : IoDesc}
  {iocbs : List Nat} {result : SubmitResult}

/-! ## What is conserved -/

/-- The blocks in the pending lists, in the thread pool and in the kernel. -/
def busyIn (pendingAio pendingAioRetry : List Nat) (threadPool : List Retries)
    (kernel : List Nat) : List Nat :=
  pendingAio ++ pendingAioRetry ++ threadPool.flatMap Retries.held ++ kernel

def busy (s : Reactor ι) : List Nat :=
  busyIn s.pendingAio s.pendingAioRetry s.threadPool s.kernel

/-- What the blocks describe. -/
def descs (s : Reactor ι) (iocbs : List Nat) : List IoDesc :=
  iocbs.filterMap fun iocb => (s.iocbPool iocb).data

/-- The requests of the queue `i` among the descriptions. -/
def ofQueue (i : Nat) (ds : List IoDesc) : List Request := (ds.filter (·.ioq = i)).map (·.req)

/-- A queue has started what was submitted, and counts what is in the blocks. -/
structure QueueConserved [Fintype ι] (i : Nat) (submitted inBlocks : List IoDesc) (made : Nat)
    (config : IoQueue.Config) (q : FairQueue.State ι) : Prop where
  conserved : FairQueue.Conserved q
  configured : q.fq.config = IoQueue.makeFairQueueConfig config
  started : q.started.map Prod.snd = ofQueue i submitted
  running : q.running.Perm (ofQueue i inBlocks)
  below : q.running.length ≤ q.fq.config.capacity.toNat
  nodup : (q.queued.map fun x => x.2.func).Nodup
  numbered : ∀ x ∈ q.queued, x.2.func < made

/-- Every control block is free or in one of the other places, once; every request that was submitted
is in one block or was resolved, once, and its cost was returned when it was resolved. -/
structure Conserved [Fintype ι] (configs : List IoQueue.Config) (s : Reactor ι) : Prop where
  configs : s.ioQueues.map Prod.fst = configs
  blocks : (s.freeIocbs ++ s.busy).Perm (List.range maxAio)
  described : ∀ iocb ∈ s.busy, ∃ desc, (s.iocbPool iocb).data = some desc ∧
    desc.ioq < s.ioQueues.length
  submitted : s.submitted.Perm (s.descs s.busy ++ s.resolved)
  once : s.submitted.Nodup
  returned : s.returned = s.resolved
  nonempty : ∀ r ∈ s.threadPool, r.iocbs ≠ []
  queues : ∀ i config q, s.ioQueues[i]? = some (config, q) →
    QueueConserved i s.submitted (s.descs s.busy) s.made config q

/-! ## Blocks that move -/

omit [DecidableEq ι] in
theorem descs_congr (h : ∀ b ∈ iocbs, (t.iocbPool b).data = (s.iocbPool b).data) :
    t.descs iocbs = s.descs iocbs := List.filterMap_congr h

variable [Fintype ι] {configs : List IoQueue.Config}

omit [DecidableEq ι] [Fintype ι] in
theorem map_fst_set {queues : List (IoQueue.Config × FairQueue.State ι)} {i : Nat}
    {config : IoQueue.Config} {q : FairQueue.State ι} (hq : queues[i]? = some (config, q))
    (q' : FairQueue.State ι) : (queues.set i (config, q')).map Prod.fst = queues.map Prod.fst := by
  rw [List.map_set]
  apply List.ext_getElem?
  intro j
  by_cases hj : j = i
  · subst hj
    have hlt := (List.getElem?_eq_some_iff.mp hq).1
    rw [List.getElem?_set_self (by rwa [List.length_map]), List.getElem?_map, hq]
    rfl
  · rw [List.getElem?_set_ne (Ne.symm hj)]

/-- Blocks that go from one place to another. -/
theorem Conserved.same (h : Conserved configs s) (hsame : Same s t) (hbusy : t.busy.Perm s.busy)
    (hne : ∀ r ∈ t.threadPool, r.iocbs ≠ []) : Conserved configs t := by
  have hdescs : (t.descs t.busy).Perm (s.descs s.busy) := by
    rw [descs_congr (s := s) fun b _ => hsame.data b]
    exact hbusy.filterMap _
  refine ⟨hsame.ioQueues ▸ h.configs, ?_, ?_, ?_, hsame.submitted ▸ h.once, ?_, hne, ?_⟩
  · rw [hsame.freeIocbs]
    exact (hbusy.append_left _).trans h.blocks
  · intro b hb
    rw [hsame.data, hsame.ioQueues]
    exact h.described b (hbusy.mem_iff.mp hb)
  · rw [hsame.submitted, hsame.resolved]
    exact h.submitted.trans (hdescs.symm.append_right _)
  · rw [hsame.returned, hsame.resolved, h.returned]
  · intro i config q hq
    rw [hsame.ioQueues] at hq
    have hqueue := h.queues i config q hq
    rw [hsame.submitted, hsame.made]
    refine ⟨hqueue.conserved, hqueue.configured, hqueue.started, ?_, hqueue.below, hqueue.nodup,
      hqueue.numbered⟩
    exact hqueue.running.trans (((hdescs.symm.filter _).map _))

omit [DecidableEq ι] [Fintype ι] in
theorem descs_cons (hdata : (s.iocbPool iocb).data = some desc) (iocbs : List Nat) :
    s.descs (iocb :: iocbs) = desc :: s.descs iocbs := by
  rw [descs, List.filterMap_cons, hdata]
  rfl

theorem ofQueue_cons_self (desc : IoDesc) (ds : List IoDesc) :
    ofQueue desc.ioq (desc :: ds) = desc.req :: ofQueue desc.ioq ds := by
  simp [ofQueue]

theorem ofQueue_cons_of_ne {i : Nat} (h : i ≠ desc.ioq) (ds : List IoDesc) :
    ofQueue i (desc :: ds) = ofQueue i ds := by
  rw [ofQueue, List.filter_cons_of_neg (by simpa using h.symm)]
  rfl

/-- A block that is freed. -/
theorem Conserved.finished (h : Conserved configs s) (hfin : Finished iocb s t)
    (hbusy : s.busy.Perm (iocb :: t.busy)) (hne : ∀ r ∈ t.threadPool, r.iocbs ≠ []) :
    Conserved configs t := by
  obtain ⟨desc, config, q, hdata, hq, hsame⟩ := hfin
  have hdescs : (s.descs s.busy).Perm (desc :: t.descs t.busy) := by
    rw [descs_congr (s := s) (t := t) fun b _ => hsame.data b, ← descs_cons hdata]
    exact hbusy.filterMap _
  refine ⟨?_, ?_, ?_, ?_, hsame.submitted ▸ h.once, ?_, hne, ?_⟩
  · rw [hsame.ioQueues]
    exact (map_fst_set hq _).trans h.configs
  · rw [hsame.freeIocbs]
    refine List.Perm.trans ?_ h.blocks
    exact List.perm_middle.symm.trans (hbusy.symm.append_left _)
  · intro b hb
    rw [hsame.data, hsame.ioQueues]
    simp only [Reactor.finished, List.length_set]
    exact h.described b (hbusy.mem_iff.mpr (List.mem_cons_of_mem _ hb))
  · rw [hsame.submitted, hsame.resolved]
    refine h.submitted.trans ((hdescs.append_right _).trans ?_)
    rw [Reactor.finished, ← List.append_assoc]
    exact (List.perm_append_singleton _ _).symm
  · rw [hsame.returned, hsame.resolved]
    simp only [Reactor.finished, h.returned]
  · intro i config' q' hq'
    rw [hsame.ioQueues] at hq'
    rw [hsame.submitted, hsame.made]
    simp only [Reactor.finished] at hq' ⊢
    by_cases hi : i = desc.ioq
    · subst hi
      have hqueue := h.queues _ _ _ hq
      have hrunning : q.running.Perm (desc.req :: ofQueue desc.ioq (t.descs t.busy)) := by
        rw [← ofQueue_cons_self]
        exact hqueue.running.trans ((hdescs.filter _).map _)
      have hmem : desc.req ∈ q.running := hrunning.mem_iff.mpr List.mem_cons_self
      rw [List.getElem?_set_self (List.getElem?_eq_some_iff.mp hq).1] at hq'
      obtain ⟨rfl, rfl⟩ := Prod.mk.inj (Option.some.inj hq')
      refine ⟨hqueue.conserved.notify hmem, hqueue.configured, hqueue.started, ?_, ?_,
        hqueue.nodup, hqueue.numbered⟩
      · have herase := hrunning.erase desc.req
        rwa [List.erase_cons_head] at herase
      · exact (List.length_erase_le).trans hqueue.below
    · rw [List.getElem?_set_ne (Ne.symm hi)] at hq'
      have hqueue := h.queues i config' q' hq'
      refine ⟨hqueue.conserved, hqueue.configured, hqueue.started, ?_, hqueue.below, hqueue.nodup,
        hqueue.numbered⟩
      rw [← ofQueue_cons_of_ne hi]
      exact hqueue.running.trans ((hdescs.filter _).map _)

/-! ## A request that is started -/

/-- A request that has a number of its own is started at most once. -/
theorem started_nodup {q : FairQueue.State ι} (h : FairQueue.Conserved q)
    (hnodup : (q.queued.map fun x => x.2.func).Nodup) :
    (q.started.map fun x => x.2.func).Nodup := by
  have hcount : ∀ (l : List (ι × Request)) (pc : ι) (req : Request),
      l.count (pc, req) = (FairQueue.ofClass pc l).count req := by
    intro l pc req
    induction l with
    | nil => rfl
    | cons x l ih =>
      obtain ⟨d, r⟩ := x
      rw [List.count_cons, ih, FairQueue.ofClass, FairQueue.ofClass, List.filter_cons]
      by_cases hd : d = pc
      · simp [hd, List.count_cons]
      · simp [hd]
  have hsub : q.started.Subperm q.queued := by
    rw [List.subperm_ext_iff]
    rintro ⟨pc, req⟩ -
    rw [hcount, hcount, h.fifo pc, List.count_append]
    exact Nat.le_add_right _ _
  obtain ⟨l, hperm, hsublist⟩ := hsub
  exact (hperm.map _).nodup_iff.mp (hnodup.sublist (hsublist.map _))

omit [DecidableEq ι] [Fintype ι] in
/-- The other blocks keep what they describe. -/
theorem descs_update (hiocb : iocb ∉ iocbs) (io : Iocb)
    (ht : t.iocbPool = Function.update s.iocbPool iocb io) : t.descs iocbs = s.descs iocbs := by
  apply descs_congr
  intro b hb
  have hne : b ≠ iocb := fun he => hiocb (he ▸ hb)
  rw [ht, Function.update_of_ne hne]

theorem ofQueue_append (i : Nat) (ds es : List IoDesc) :
    ofQueue i (ds ++ es) = ofQueue i ds ++ ofQueue i es := by
  rw [ofQueue, List.filter_append, List.map_append]
  rfl

/-- The state after the next request of a queue has taken a block. -/
def startedState (i : Nat) (config : IoQueue.Config) (q : FairQueue.State ι) (req : Request)
    (io : Nat) (freeIocbs : List Nat) (s : Reactor ι) : Reactor ι :=
  { s with
    ioQueues := s.ioQueues.set i (config, q)
    freeIocbs
    iocbPool := Function.update s.iocbPool io
      { nowait := s.aioNowaitSupported, data := some ⟨i, req⟩ }
    pendingAio := s.pendingAio ++ [io]
    submitted := s.submitted ++ [⟨i, req⟩] }

/-- A request that takes a block. -/
theorem Conserved.started {i io : Nat} {freeIocbs : List Nat} {config : IoQueue.Config}
    {q : FairQueue.State ι} {pc : ι} {req : Request} {fq : FairQueue ι} (h : Conserved configs s)
    (hq : s.ioQueues[i]? = some (config, q)) (hfree : s.freeIocbs = io :: freeIocbs)
    (hbelow : q.running.length < q.fq.config.capacity.toNat)
    (hconfig : fq.config = q.fq.config)
    (hconserved : FairQueue.Conserved { q with
      fq, started := q.started ++ [(pc, req)], running := q.running ++ [req] }) :
    Conserved configs (startedState i config { q with
      fq, started := q.started ++ [(pc, req)], running := q.running ++ [req] } req io freeIocbs
      s) := by
  have hlt := (List.getElem?_eq_some_iff.mp hq).1
  have hqueue := h.queues i config q hq
  have hnodup : (io :: (freeIocbs ++ s.busy)).Nodup := by
    have := h.blocks.nodup_iff.mpr List.nodup_range
    rwa [hfree] at this
  have hio : io ∉ s.busy := by
    intro hmem
    exact (List.nodup_cons.mp hnodup).1 (List.mem_append_right _ hmem)
  generalize ht : startedState i config { q with
      fq, started := q.started ++ [(pc, req)], running := q.running ++ [req] } req io freeIocbs
      s = t
  have hbusy : t.busy.Perm (io :: s.busy) := by
    rw [← ht]
    refine List.perm_iff_count.mpr fun a => ?_
    simp only [startedState, busy, busyIn, List.count_append, List.count_cons, List.count_nil]
    omega
  have hdata : (t.iocbPool io).data = some ⟨i, req⟩ := by
    rw [← ht]
    simp only [startedState, Function.update_self]
  have hdescs : (t.descs t.busy).Perm (⟨i, req⟩ :: s.descs s.busy) := by
    have hpool : t.iocbPool = Function.update s.iocbPool io
        { nowait := s.aioNowaitSupported, data := some ⟨i, req⟩ } := by
      rw [← ht]
      rfl
    rw [← descs_update hio _ hpool, ← descs_cons hdata]
    exact hbusy.filterMap _
  have hsubmitted : t.submitted = s.submitted ++ [⟨i, req⟩] := by rw [← ht]; rfl
  refine ⟨?_, ?_, ?_, ?_, ?_, ?_, ?_, ?_⟩
  · rw [← ht]
    exact (map_fst_set hq _).trans h.configs
  · have hfree' : t.freeIocbs = freeIocbs := by rw [← ht]; rfl
    rw [hfree']
    refine (hbusy.append_left _).trans (List.perm_middle.trans ?_)
    have := h.blocks
    rwa [hfree] at this
  · intro b hb
    have hlen : t.ioQueues.length = s.ioQueues.length := by
      rw [← ht]
      exact List.length_set
    rw [hlen]
    rcases List.mem_cons.mp (hbusy.mem_iff.mp hb) with rfl | hb
    · exact ⟨_, hdata, hlt⟩
    · have hne : b ≠ io := fun he => hio (he ▸ hb)
      have hsame : t.iocbPool b = s.iocbPool b := by
        rw [← ht]
        exact Function.update_of_ne hne _ _
      rw [hsame]
      exact h.described b hb
  · have hresolved : t.resolved = s.resolved := by rw [← ht]; rfl
    rw [hsubmitted, hresolved]
    refine (List.perm_append_singleton _ _).trans ?_
    exact (h.submitted.cons _).trans (hdescs.symm.append_right _)
  · -- a request that was submitted was started, and no request is started twice
    have hstarted := started_nodup hconserved hqueue.nodup
    rw [hsubmitted, List.nodup_append]
    refine ⟨h.once, List.nodup_singleton _, ?_⟩
    rintro d hd e he rfl
    obtain rfl := List.mem_singleton.mp he
    have hreq : req ∈ q.started.map Prod.snd := by
      rw [hqueue.started]
      exact List.mem_map.mpr ⟨_, List.mem_filter.mpr ⟨hd, by simp⟩, rfl⟩
    obtain ⟨x, hx, rfl⟩ := List.mem_map.mp hreq
    rw [List.map_append, List.nodup_append] at hstarted
    exact hstarted.2.2 _ (List.mem_map_of_mem hx) _ (by simp) rfl
  · rw [← ht]
    exact h.returned
  · rw [← ht]
    exact h.nonempty
  · intro j config' q' hq'
    have hmade : t.made = s.made := by rw [← ht]; rfl
    have hqueues : t.ioQueues = s.ioQueues.set i (config, { q with
        fq, started := q.started ++ [(pc, req)], running := q.running ++ [req] }) := by
      rw [← ht]
      rfl
    rw [hqueues] at hq'
    rw [hsubmitted, hmade]
    by_cases hj : j = i
    · subst hj
      rw [List.getElem?_set_self hlt] at hq'
      obtain ⟨rfl, rfl⟩ := Prod.mk.inj (Option.some.inj hq')
      refine ⟨hconserved, hconfig.trans hqueue.configured, ?_, ?_, ?_, hqueue.nodup,
        hqueue.numbered⟩
      · rw [List.map_append, hqueue.started, ofQueue_append]
        simp [ofQueue]
      · refine (List.perm_append_singleton _ _).trans ((hqueue.running.cons _).trans ?_)
        have := (hdescs.symm.filter (·.ioq = j)).map (·.req)
        rwa [List.filter_cons_of_pos (by simp)] at this
      · rw [hconfig, List.length_append, List.length_singleton]
        exact hbelow
    · rw [List.getElem?_set_ne (Ne.symm hj)] at hq'
      have hother := h.queues j config' q' hq'
      refine ⟨hother.conserved, hother.configured, ?_, ?_, hother.below, hother.nodup,
        hother.numbered⟩
      · rw [ofQueue_append, hother.started]
        simp [ofQueue, Ne.symm hj]
      · have := (hdescs.symm.filter (·.ioq = j)).map (·.req)
        rw [List.filter_cons_of_neg (by simpa using Ne.symm hj)] at this
        exact hother.running.trans this

/-- What the queues may have executing together. -/
def capacity (configs : List IoQueue.Config) : Nat :=
  (configs.map fun config => (IoQueue.makeFairQueueConfig config).capacity.toNat).sum

/-- While a queue may start a request there is a free block, if there are as many blocks as the queues
may have requests executing. -/
theorem Conserved.free_ne_nil {i : Nat} {config : IoQueue.Config} {q : FairQueue.State ι}
    (h : Conserved configs s) (hcapacity : capacity configs ≤ maxAio)
    (hq : s.ioQueues[i]? = some (config, q)) (hcan : q.fq.canDispatch = true) :
    s.freeIocbs ≠ [] := by
  intro hfree
  have hblocks := h.blocks.length_eq
  rw [hfree, List.nil_append, List.length_range] at hblocks
  have hlength : (s.descs s.busy).length = s.busy.length := by
    rw [descs, List.filterMap_length_eq_length]
    intro b hb
    obtain ⟨desc, hdata, -⟩ := h.described b hb
    rw [hdata]
    rfl
  have hcount : ∀ k : Fin s.ioQueues.length, ((s.descs s.busy).map (·.ioq)).count k.1 =
      s.ioQueues[k].2.running.length := by
    intro k
    have hqueue := h.queues k.1 s.ioQueues[k].1 s.ioQueues[k].2 (List.getElem?_eq_getElem k.2)
    rw [hqueue.running.length_eq, ofQueue, List.length_map, ← List.countP_eq_length_filter,
      List.count, List.countP_map]
    rfl
  have hsum : ∑ k : Fin s.ioQueues.length, ((s.descs s.busy).map (·.ioq)).count k.1 =
      s.busy.length := by
    have hall : ∀ a ∈ (((s.descs s.busy).map (·.ioq) : List Nat) : Multiset Nat),
        a ∈ Finset.range s.ioQueues.length := by
      intro a ha
      obtain ⟨desc, hdesc, rfl⟩ := List.mem_map.mp (Multiset.mem_coe.mp ha)
      obtain ⟨b, hb, hdata⟩ := List.mem_filterMap.mp hdesc
      obtain ⟨desc', hdata', hlt⟩ := h.described b hb
      obtain rfl := Option.some.inj (hdata.symm.trans hdata')
      exact Finset.mem_range.mpr hlt
    have := Multiset.sum_count_eq_card hall
    rw [Finset.sum_range] at this
    simpa [hlength] using this
  have hlt : ∑ k : Fin s.ioQueues.length, ((s.descs s.busy).map (·.ioq)).count k.1 <
      ∑ k : Fin s.ioQueues.length,
        (IoQueue.makeFairQueueConfig s.ioQueues[k].1).capacity.toNat := by
    have hi := (List.getElem?_eq_some_iff.mp hq).1
    refine Finset.sum_lt_sum (fun k _ => ?_) ⟨⟨i, hi⟩, Finset.mem_univ _, ?_⟩
    · have hqueue := h.queues k.1 s.ioQueues[k].1 s.ioQueues[k].2 (List.getElem?_eq_getElem k.2)
      rw [hcount, ← hqueue.configured]
      exact hqueue.below
    · have hqueue := h.queues i config q hq
      have hget : s.ioQueues[(⟨i, hi⟩ : Fin s.ioQueues.length)] = (config, q) :=
        (List.getElem?_eq_some_iff.mp hq).2
      rw [hcount, hget, ← hqueue.configured, ← hqueue.conserved.requestsExecuting,
        ← UInt32.lt_iff_toNat_lt]
      exact (FairQueue.canDispatch_below hcan).1
  have htotal : ∑ k : Fin s.ioQueues.length,
      (IoQueue.makeFairQueueConfig s.ioQueues[k].1).capacity.toNat = capacity configs := by
    rw [capacity, ← h.configs, List.map_map, ← Fin.sum_univ_fun_getElem]
    rfl
  omega

/-! ## Steps -/

theorem Conserved.queueRequest (h : Conserved configs s) (i : Nat) (pc : ι) (io : IoRequest) :
    ∃ t, s.queueRequest i pc io = .ok t ∧ Conserved configs t := by
  cases hq : s.ioQueues[i]? with
  | none => exact ⟨s, by simp only [Reactor.queueRequest, hq], h⟩
  | some x =>
    obtain ⟨config, q⟩ := x
    refine ⟨_, by simp only [Reactor.queueRequest, hq]; rfl, ?_⟩
    refine ⟨(map_fst_set hq _).trans h.configs, h.blocks, ?_, h.submitted, h.once, h.returned,
      h.nonempty, ?_⟩
    · intro b hb
      simp only [List.length_set]
      exact h.described b hb
    · intro j config' q' hq'
      by_cases hj : j = i
      · subst hj
        rw [List.getElem?_set_self (List.getElem?_eq_some_iff.mp hq).1] at hq'
        obtain ⟨rfl, rfl⟩ := Prod.mk.inj (Option.some.inj hq')
        have hqueue := h.queues j config q hq
        refine ⟨hqueue.conserved.queue pc _, ?_, hqueue.started, hqueue.running, ?_, ?_, ?_⟩
        · exact (FairQueue.push_same pc q.fq).config.trans hqueue.configured
        · have hconfig : (q.fq.queue pc ⟨s.made, IoQueue.descriptor config io⟩).config =
              q.fq.config := (FairQueue.push_same pc q.fq).config
          rw [hconfig]
          exact hqueue.below
        · rw [List.map_append, List.nodup_append]
          refine ⟨hqueue.nodup, by simp, ?_⟩
          rintro n hn m hm rfl
          obtain ⟨x, hx, rfl⟩ := List.mem_map.mp hn
          rw [List.map_singleton, List.mem_singleton] at hm
          exact Nat.ne_of_lt (hqueue.numbered x hx) hm
        · intro x hx
          rcases List.mem_append.mp hx with hx | hx
          · exact Nat.lt_succ_of_lt (hqueue.numbered x hx)
          · obtain rfl := List.mem_singleton.mp hx
            exact Nat.lt_succ_self _
      · rw [List.getElem?_set_ne (Ne.symm hj)] at hq'
        have hother := h.queues j config' q' hq'
        exact ⟨hother.conserved, hother.configured, hother.started, hother.running, hother.below,
          hother.nodup, fun x hx => Nat.lt_succ_of_lt (hother.numbered x hx)⟩

/-- A round of a queue takes a free block if it starts a request. -/
theorem Conserved.dispatchRequest (h : Conserved configs s) (i : Nat) (top : FairQueue.Top ι) :
    (∃ t, s.dispatchRequest i top = .ok t ∧ Conserved configs t) ∨
      s.dispatchRequest i top = .error .emptyQueue ∧ ¬ capacity configs ≤ maxAio := by
  cases hq : s.ioQueues[i]? with
  | none => exact Or.inl ⟨s, by simp only [Reactor.dispatchRequest, hq], h⟩
  | some x =>
    obtain ⟨config, q⟩ := x
    have hqueue := h.queues i config q hq
    obtain ⟨hcan, pc, req, fq, hnext, hdisp, hloop⟩ | ⟨hcan, -⟩ := hqueue.conserved.loop_cases top
    · obtain ⟨q', hq', hconserved, -⟩ := hqueue.conserved.loop top
      obtain rfl := Except.ok.inj (hloop.symm.trans hq')
      have hbelow : q.running.length < q.fq.config.capacity.toNat := by
        rw [← hqueue.conserved.requestsExecuting, ← UInt32.lt_iff_toNat_lt]
        exact (FairQueue.canDispatch_below hcan).1
      cases hfree : s.freeIocbs with
      | nil =>
        refine Or.inr ⟨?_, fun hcap => h.free_ne_nil hcap hq hcan hfree⟩
        simp only [Reactor.dispatchRequest, hq, hcan, if_true, hnext, ok_bind, submitIo, hfree]
      | cons io freeIocbs =>
        refine Or.inl ⟨_, ?_, h.started hq hfree hbelow hdisp.config hconserved⟩
        simp only [Reactor.dispatchRequest, hq, hcan, if_true, hnext, ok_bind, submitIo, hfree]
        rfl
    · refine Or.inl ⟨s, ?_, h⟩
      simp only [Reactor.dispatchRequest, hq, hcan, Bool.false_eq_true, if_false]

/-- The blocks that are taken from a list and the others. -/
theorem count_take_drop (a n : Nat) (l : List Nat) :
    (l.take n).count a + (l.drop n).count a = l.count a := by
  rw [← List.count_append, List.take_append_drop]

theorem Conserved.flushOnce (h : Conserved configs s) (result : SubmitResult) :
    ∃ t, s.flushOnce result = .ok t ∧ Conserved configs t := by
  by_cases hnil : s.pendingAio = []
  · exact ⟨s, if_pos hnil, h⟩
  · have hdescribed : ∃ desc, (s.iocbPool (s.pendingAio.head hnil)).data = some desc ∧
        desc.ioq < s.ioQueues.length := by
      apply h.described
      simp [busy, busyIn]
    have hsame : Same s (s.ioSubmit s.pendingAio result) :=
      ⟨rfl, rfl, fun _ => rfl, rfl, rfl, rfl, rfl⟩
    obtain ⟨n, t, ht, hplaces, hcase⟩ := nrConsumed_ok
      (s := s.ioSubmit s.pendingAio result) result hnil fun _ => hdescribed
    have hlast : Same t { t with pendingAio := t.pendingAio.drop n } :=
      ⟨rfl, rfl, fun _ => rfl, rfl, rfl, rfl, rfl⟩
    have hne : ∀ r ∈ t.threadPool, r.iocbs ≠ [] := by
      rw [hplaces.threadPool]
      exact h.nonempty
    refine ⟨{ t with pendingAio := t.pendingAio.drop n }, ?_, ?_⟩
    · rw [Reactor.flushOnce, if_neg hnil, ht, ok_bind]
    · rcases hcase with ⟨rfl, hsame'⟩ | ⟨rfl, rfl, hfin⟩
      · refine h.same ((hsame.trans hsame').trans hlast) ?_ hne
        refine List.perm_iff_count.mpr fun a => ?_
        have := count_take_drop a (result.count s.pendingAio) s.pendingAio
        simp only [busy, busyIn, hplaces.pendingAio, hplaces.pendingAioRetry, hplaces.threadPool,
          hplaces.kernel, ioSubmit, List.count_append]
        omega
      · refine h.finished ((hfin.after hsame).before hlast) ?_ hne
        refine List.perm_iff_count.mpr fun a => ?_
        obtain ⟨iocb, rest, hcons⟩ := List.exists_cons_of_ne_nil hnil
        simp only [busy, busyIn, hplaces.pendingAio, hplaces.pendingAioRetry, hplaces.threadPool,
          hplaces.kernel, ioSubmit, SubmitResult.count, List.take_zero, List.append_nil, hcons,
          List.head_cons, List.drop_succ_cons, List.drop_zero, List.count_append, List.count_cons]
        omega

theorem Conserved.submitRetries (h : Conserved configs s) :
    Conserved configs s.submitRetries := by
  rw [Reactor.submitRetries]
  split
  · exact h
  · rename_i hnil
    refine h.same ⟨rfl, rfl, fun _ => rfl, rfl, rfl, rfl, rfl⟩ ?_ ?_
    · refine List.perm_iff_count.mpr fun a => ?_
      simp only [busy, busyIn, List.flatMap_append, List.flatMap_singleton, Retries.held,
        List.append_nil, List.count_append]
      omega
    · intro r hr
      rcases List.mem_append.mp hr with hr | hr
      · exact h.nonempty r hr
      · obtain rfl := List.mem_singleton.mp hr
        exact hnil

/-- What the thread pool has when a batch of it becomes another. -/
theorem count_held_set {pool : List Retries} {k : Nat} {r : Retries} (hr : pool[k]? = some r)
    (r' : Retries) (a : Nat) :
    ((pool.set k r').flatMap Retries.held).count a + r.held.count a =
      (pool.flatMap Retries.held).count a + r'.held.count a := by
  induction pool generalizing k with
  | nil => cases hr
  | cons x pool ih =>
    cases k with
    | zero =>
      obtain rfl := Option.some.inj hr
      simp only [List.set_cons_zero, List.flatMap_cons, List.count_append]
      omega
    | succ k =>
      have := ih (k := k) hr
      simp only [List.set_cons_succ, List.flatMap_cons, List.count_append]
      omega

/-- ... and when one leaves it. -/
theorem count_held_eraseIdx {pool : List Retries} {k : Nat} {r : Retries}
    (hr : pool[k]? = some r) (a : Nat) :
    ((pool.eraseIdx k).flatMap Retries.held).count a + r.held.count a =
      (pool.flatMap Retries.held).count a := by
  induction pool generalizing k with
  | nil => cases hr
  | cons x pool ih =>
    cases k with
    | zero =>
      obtain rfl := Option.some.inj hr
      simp only [List.eraseIdx_cons_zero, List.flatMap_cons, List.count_append]
      omega
    | succ k =>
      have := ih (k := k) hr
      simp only [List.eraseIdx_cons_succ, List.flatMap_cons, List.count_append]
      omega

theorem Conserved.threadSubmits (h : Conserved configs s) (k : Nat) (result : SubmitResult) :
    Conserved configs (s.threadSubmits k result) := by
  cases hr : s.threadPool[k]? with
  | none => simpa only [Reactor.threadSubmits, hr] using h
  | some r =>
    cases r with
    | submitted iocbs result' => simpa only [Reactor.threadSubmits, hr] using h
    | submitting iocbs =>
      simp only [Reactor.threadSubmits, hr]
      refine h.same ⟨rfl, rfl, fun _ => rfl, rfl, rfl, rfl, rfl⟩ ?_ ?_
      · refine List.perm_iff_count.mpr fun a => ?_
        have hset := count_held_set hr (.submitted iocbs result) a
        have := count_take_drop a (result.count iocbs) iocbs
        simp only [Retries.held] at hset
        simp only [busy, busyIn, ioSubmit, List.count_append]
        omega
      · intro r hr'
        rcases List.mem_or_eq_of_mem_set hr' with hr' | rfl
        · exact h.nonempty r hr'
        · have hnil : iocbs ≠ [] := h.nonempty (.submitting iocbs) (List.mem_of_getElem? hr)
          exact hnil

theorem Conserved.retriesSubmitted (h : Conserved configs s) (k : Nat) :
    ∃ t, s.retriesSubmitted k = .ok t ∧ Conserved configs t := by
  cases hr : s.threadPool[k]? with
  | none => exact ⟨s, by simp only [Reactor.retriesSubmitted, hr], h⟩
  | some r =>
    cases r with
    | submitting iocbs => exact ⟨s, by simp only [Reactor.retriesSubmitted, hr], h⟩
    | submitted iocbs result =>
      have hmem := List.mem_of_getElem? hr
      have hnil : iocbs ≠ [] := h.nonempty _ hmem
      have hdescribed : result.count iocbs = 0 → ∃ desc,
          (s.iocbPool (iocbs.head hnil)).data = some desc ∧ desc.ioq < s.ioQueues.length := by
        intro hzero
        apply h.described
        have hheld : iocbs.head hnil ∈ s.threadPool.flatMap Retries.held := by
          refine List.mem_flatMap.mpr ⟨_, hmem, ?_⟩
          rw [Retries.held, hzero, List.drop_zero]
          exact List.head_mem hnil
        simp only [busy, busyIn, List.mem_append]
        exact Or.inl (Or.inr hheld)
      obtain ⟨n, t, ht, hplaces, hcase⟩ := nrConsumed_ok result hnil hdescribed
      have hlast : Same t { t with
          threadPool := t.threadPool.eraseIdx k
          pendingAioRetry := t.pendingAioRetry ++ iocbs.drop n } :=
        ⟨rfl, rfl, fun _ => rfl, rfl, rfl, rfl, rfl⟩
      have hne : ∀ r ∈ t.threadPool.eraseIdx k, r.iocbs ≠ [] := by
        intro r hr'
        rw [hplaces.threadPool] at hr'
        exact h.nonempty r (List.mem_of_mem_eraseIdx hr')
      refine ⟨{ t with
          threadPool := t.threadPool.eraseIdx k
          pendingAioRetry := t.pendingAioRetry ++ iocbs.drop n }, ?_, ?_⟩
      · simp only [Reactor.retriesSubmitted, hr, ht, ok_bind]
      · rcases hcase with ⟨rfl, hsame⟩ | ⟨rfl, rfl, hfin⟩
        · refine h.same (hsame.trans hlast) ?_ hne
          refine List.perm_iff_count.mpr fun a => ?_
          have herase := count_held_eraseIdx hr a
          simp only [Retries.held] at herase
          simp only [busy, busyIn, hplaces.pendingAio, hplaces.pendingAioRetry, hplaces.threadPool,
            hplaces.kernel, List.count_append]
          omega
        · refine h.finished (hfin.before hlast) ?_ hne
          refine List.perm_iff_count.mpr fun a => ?_
          obtain ⟨iocb, rest, rfl⟩ := List.exists_cons_of_ne_nil hnil
          have herase := count_held_eraseIdx hr a
          simp only [Retries.held, SubmitResult.count, List.drop_zero, List.count_cons] at herase
          simp only [busy, busyIn, hplaces.pendingAio, hplaces.pendingAioRetry, hplaces.threadPool,
            hplaces.kernel, List.head_cons, List.drop_succ_cons, List.drop_zero, List.count_append,
            List.count_cons]
          omega

/-- An event gives its block back, or has it retried. -/
theorem Conserved.processEvent (h : Conserved configs s) (ev : IoEvent) :
    ∃ t, s.processEvent ev = .ok t ∧ Conserved configs t := by
  by_cases hmem : ev.iocb ∈ s.kernel
  · have hbusy : s.busy.Perm (ev.iocb :: busyIn s.pendingAio s.pendingAioRetry s.threadPool
        (s.kernel.erase ev.iocb)) := by
      refine List.perm_iff_count.mpr fun a => ?_
      have := (List.perm_cons_erase hmem).count_eq a
      simp only [busy, busyIn, List.count_append, List.count_cons] at this ⊢
      omega
    have hsame : Same s { s with kernel := s.kernel.erase ev.iocb } :=
      ⟨rfl, rfl, fun _ => rfl, rfl, rfl, rfl, rfl⟩
    cases hagain : ev.again with
    | true =>
      refine ⟨_, by simp only [Reactor.processEvent, if_pos hmem, hagain, if_true]; rfl, ?_⟩
      have hnowait := setNowait_same ev.iocb false { s with kernel := s.kernel.erase ev.iocb }
      refine h.same ((hsame.trans hnowait).trans ⟨rfl, rfl, fun _ => rfl, rfl, rfl, rfl, rfl⟩) ?_
        h.nonempty
      refine List.perm_iff_count.mpr fun a => ?_
      have := hbusy.count_eq a
      simp only [busy, busyIn, setNowait, List.count_append, List.count_cons, List.count_nil] at this ⊢
      omega
    | false =>
      obtain ⟨desc, hdata, hlt⟩ := h.described ev.iocb (hbusy.mem_iff.mpr List.mem_cons_self)
      obtain ⟨t, ht, hplaces, hfin⟩ := finishRequest_ok
        (s := { s with kernel := s.kernel.erase ev.iocb }) hdata hlt
      refine ⟨t, ?_, h.finished (hfin.after hsame) ?_ ?_⟩
      · simp only [Reactor.processEvent, if_pos hmem, hagain, Bool.false_eq_true, if_false, ht]
      · have hplace : t.busy = busyIn s.pendingAio s.pendingAioRetry s.threadPool
            (s.kernel.erase ev.iocb) := by
          rw [busy, hplaces.pendingAio, hplaces.pendingAioRetry, hplaces.threadPool, hplaces.kernel]
        rwa [hplace]
      · rw [hplaces.threadPool]
        exact h.nonempty
  · exact ⟨s, if_neg hmem, h⟩

theorem Conserved.processIo (h : Conserved configs s) (evs : List IoEvent) :
    ∃ t, s.processIo evs = .ok t ∧ Conserved configs t :=
  Run.run_total (fun _ ev hs => hs.processEvent ev) h evs

/-- An action keeps the invariant. It only fails when a request that is started finds no free block,
of which there are enough for the capacities of the queues. -/
theorem Conserved.step (h : Conserved configs s) (a : Action ι) :
    (∃ t, s.step a = .ok t ∧ Conserved configs t) ∨
      s.step a = .error .emptyQueue ∧ ¬ capacity configs ≤ maxAio := by
  cases a with
  | queueRequest i pc io => exact Or.inl (h.queueRequest i pc io)
  | dispatchRequest i top => exact h.dispatchRequest i top
  | flushOnce result => exact Or.inl (h.flushOnce result)
  | submitRetries => exact Or.inl ⟨_, rfl, h.submitRetries⟩
  | threadSubmits k result => exact Or.inl ⟨_, rfl, h.threadSubmits k result⟩
  | retriesSubmitted k => exact Or.inl (h.retriesSubmitted k)
  | processIo evs => exact Or.inl (h.processIo evs)

theorem init_conserved (configs : List IoQueue.Config) :
    Conserved configs (init configs : Reactor ι) where
  configs := by
    rw [init, List.map_map]
    exact List.map_id _
  blocks := by
    simp only [init, busy, busyIn, List.flatMap_nil, List.append_nil]
    exact List.Perm.refl _
  described b hb := by cases hb
  submitted := List.Perm.refl _
  once := List.nodup_nil
  returned := rfl
  nonempty r hr := by cases hr
  queues i config q hq := by
    rw [init, List.getElem?_map] at hq
    obtain ⟨config', -, hq⟩ := Option.map_eq_some_iff.mp hq
    obtain ⟨rfl, rfl⟩ := Prod.mk.inj hq
    exact ⟨FairQueue.Conserved.initial _, rfl, rfl, List.Perm.refl _, Nat.zero_le _,
      List.nodup_nil, fun x hx => by cases hx⟩

/-- In every state of a run each control block is in one place, and each request that was submitted is
in one block or was resolved, with its cost returned; when there are as many blocks as the queues may
have requests executing, no request ever finds none. -/
theorem run_conserves_iocbs (configs : List IoQueue.Config) (as : List (Action ι)) :
    (∀ s, Run.run step (init configs) as = .ok s → Conserved configs s) ∧
      (capacity configs ≤ maxAio → ∃ s, Run.run step (init configs : Reactor ι) as = .ok s) := by
  constructor
  · intro s hs
    refine Run.run_keeps (fun s a t h ht => ?_) (init_conserved configs) hs
    rcases h.step a with ⟨u, hu, h'⟩ | ⟨he, -⟩
    · obtain rfl := Except.ok.inj (ht.symm.trans hu)
      exact h'
    · cases ht.symm.trans he
  · intro hcap
    obtain ⟨s, hs, -⟩ := Run.run_total (I := Conserved configs) (fun s a h => by
      rcases h.step a with h' | ⟨-, hcap'⟩
      · exact h'
      · exact absurd hcap hcap') (init_conserved configs) as
    exact ⟨s, hs⟩

end Reactor

end Seastar
