import Seastar.Net.Virtio.Queues
import Seastar.Net.Virtio.Rings

/-!
Runs of the queues and their devices. A descriptor is free or in one chain, the semaphore never
counts more descriptors than there are free ones, and each chain that the device returns is
completed once, with the length it was returned with.
-/

namespace Seastar.Net.Virtio

open Lib

/-! ## The ring -/

/-- The outcome of a step: only a header without buffers stops the driver. -/
def Ends {α : Type} (Q : α → Prop) : Except Stop α → Prop
  | .ok a => Q a
  | .error f => f = .noBuffers

theorem Ends.bind {α β : Type} {P : α → Prop} {Q : β → Prop} {x : Except Stop α}
    {f : α → Except Stop β} (hx : Ends P x) (hf : ∀ a, P a → Ends Q (f a)) : Ends Q (x >>= f) := by
  cases x with
  | error e => exact hx
  | ok a => exact hf a hx

namespace Vring

variable {r : Vring} {d : Device} {l : List Nat} {chains : List (Chain × List Nat)}

/-- The other fields of the ring do not matter. -/
theorem Rep.frame (hrep : Rep r l chains) {availRing : Nat → UInt16} {usedElements : Nat → UsedElem}
    {availIdx head usedIdx tail : UInt16} {posted : Nat} {completed : List (Nat × UInt32)} :
    Rep { r with availRing, availIdx, head, usedElements, usedIdx, tail, posted, completed } l
      chains :=
  ⟨⟨hrep.list.head, hrep.list.last, hrep.list.linked, hrep.list.nodup, hrep.list.small⟩, hrep.perm,
    hrep.chained, hrep.stored, hrep.only, hrep.lengths⟩

/-- The descriptors and the rings are in order, with chains of valid buffers on their way. -/
def Carries (V : List Buffer → Prop) (r : Vring) (d : Device) (l : List Nat) : Prop :=
  ∃ chains, Rep r l chains ∧ Rings r d chains ∧ ∀ c ∈ chains, V c.1.buffers

variable {V : List Buffer → Prop}

theorem Carries.setup (config : RingSize) :
    Carries V (Vring.setup config) {} (List.range (2 ^ config.log)) :=
  ⟨[], .setup config, .setup config, fun c hc => by cases hc⟩

theorem Carries.postChain {bs : List Buffer} (hc : Carries V r d l) (hbs : bs ≠ []) (hV : V bs)
    (hn : bs.length ≤ l.length) :
    ∃ r', r.postChain bs = .ok r' ∧ Carries V r' d (l.drop bs.length) ∧ r'.config = r.config := by
  obtain ⟨chains, hrep, hrings, hvalid⟩ := hc
  obtain ⟨h, descs, hh, hsmall, hrun, hrep'⟩ := hrep.postChain hbs hn
  have hpos := List.length_pos_iff.mpr hbs
  have hfew := hrings.few hrep
  refine ⟨_, hrun, ⟨_, hrep', hrings.postChain (by omega) hh hsmall, ?_⟩, rfl⟩
  intro c hc
  rcases List.mem_cons.mp hc with rfl | hc
  · exact hV
  · exact hvalid c hc

theorem Carries.postLoop {css : List (List Buffer)} (hc : Carries V r d l)
    (hcss : ∀ bs ∈ css, bs ≠ [] ∧ V bs) (hn : (css.map List.length).sum ≤ l.length) :
    ∃ r', postLoop css r = .ok r' ∧ Carries V r' d (l.drop (css.map List.length).sum) ∧
      r'.config = r.config := by
  induction css generalizing r l with
  | nil => exact ⟨r, rfl, hc, rfl⟩
  | cons bs css ih =>
    rw [List.map_cons, List.sum_cons] at hn
    obtain ⟨hbs, hV⟩ := hcss bs List.mem_cons_self
    obtain ⟨r₁, hrun₁, hc₁, hconfig₁⟩ := hc.postChain hbs hV (by omega)
    obtain ⟨r₂, hrun₂, hc₂, hconfig₂⟩ := ih hc₁ (fun cs hcs => hcss cs (List.mem_cons_of_mem _ hcs))
      (by rw [List.length_drop]; omega)
    refine ⟨r₂, ?_, ?_, hconfig₂.trans hconfig₁⟩
    · rw [Vring.postLoop, hrun₁]
      exact hrun₂
    · rw [List.map_cons, List.sum_cons, ← List.drop_drop]
      exact hc₂

/-- ... and the device may see all that is posted. -/
structure Sound (V : List Buffer → Prop) (r : Vring) (d : Device) (l : List Nat) : Prop where
  carries : Carries V r d l
  availIdx : r.availIdx = r.head

theorem Sound.post (css : List (List Buffer)) (hs : Sound V r d l)
    (hcss : ∀ bs ∈ css, bs ≠ [] ∧ V bs) (hn : (css.map List.length).sum ≤ l.length) :
    ∃ r', r.post css = .ok r' ∧ Sound V r' d (l.drop (css.map List.length).sum) := by
  obtain ⟨r', hrun, ⟨chains, hrep, hrings, hvalid⟩, -⟩ := hs.carries.postLoop hcss hn
  refine ⟨{ r' with availIdx := r'.head }, ?_, ⟨⟨chains, hrep.frame, ?_, hvalid⟩, rfl⟩⟩
  · rw [Vring.post, hrun]
    rfl
  · exact ⟨hrings.head, hrings.idx, hrings.usedIdx, hrings.tail, hrings.completed, hrings.taken,
      hrings.once, hrings.numbers, hrings.avail, hrings.held, hrings.used⟩

theorem Sound.take (hs : Sound V r d l) : Sound V r (d.take r) l := by
  obtain ⟨⟨chains, hrep, hrings, hvalid⟩, hidx⟩ := hs
  exact ⟨⟨chains, hrep, hrings.take hrep hidx, hvalid⟩, hidx⟩

theorem Sound.give (hs : Sound V r d l) (i : Nat) (len : UInt32) :
    Sound V (d.give i len r).1 (d.give i len r).2 l := by
  obtain ⟨⟨chains, hrep, hrings, hvalid⟩, hidx⟩ := hs
  have hrings' := hrings.give hrep i len
  have hrep' : Rep (d.give i len r).1 l chains ∧
      (d.give i len r).1.availIdx = (d.give i len r).1.head := by
    cases hi : d.held[i]? with
    | none =>
      simp only [Device.give, hi]
      exact ⟨hrep, hidx⟩
    | some e =>
      simp only [Device.give, hi]
      exact ⟨hrep.frame, hidx⟩
  exact ⟨⟨chains, hrep'.1, hrings', hvalid⟩, hrep'.2⟩

/-- What the free list is does not matter to the rest. -/
theorem free_frame (h : Nat) (r : Vring) :
    ∃ descs freeHead freeLast, r.free h = { r with descs, freeHead, freeLast } := by
  rw [free]
  cases r.freeLast with
  | none => exact ⟨_, _, _, rfl⟩
  | some last => exact ⟨_, _, _, rfl⟩

variable {σ : Type} {P : σ → Nat → Prop} {complete : Chain → UInt32 → σ → Except Stop σ}

/-- One round of `do_complete`: a chain is handed over, and its descriptors are free. -/
theorem completeLoop_step {s : σ} {k : Nat} (hc : Carries V r d l) (hlt : r.completed ≠ d.reported) :
    ∃ bc len r', V bc.buffers ∧ l.length + bc.buffers.length ≤ r.size ∧
      completeLoop complete (UInt16.ofNat d.reported.length) (k + 1) s r =
        (complete bc len s >>= fun s =>
          completeLoop complete (UInt16.ofNat d.reported.length) k s r') ∧
      (∃ l', Carries V r' d l' ∧ l'.length = l.length + bc.buffers.length) ∧
      r'.completed.length = r.completed.length + 1 ∧ r'.config = r.config ∧
      (r.availIdx = r.head → r'.availIdx = r'.head) := by
  obtain ⟨chains, hrep, hrings, hvalid⟩ := hc
  have hle := hrings.completed.length_le
  have hfew := hrings.few hrep
  have hsize := Rep.size_lt r
  have hlt : r.completed.length < d.reported.length := by
    refine lt_of_le_of_ne hle fun h => hlt ?_
    exact hrings.completed.eq_of_length h
  have he : d.reported[r.completed.length]? = some d.reported[r.completed.length] :=
    List.getElem?_eq_getElem hlt
  generalize d.reported[r.completed.length] = e at he
  obtain ⟨⟨c, hc, hnumber, hhead⟩, hlen⟩ := hrings.used _ e (Nat.le_refl _) he
  obtain ⟨before, after, rfl⟩ := List.append_of_mem hc
  have hperm : (before ++ c :: after).Perm (c :: (before ++ after)) := List.perm_middle
  have hrep' := hrep.reorder hperm
  have hmem : c ∈ before ++ c :: after := List.mem_append_right _ List.mem_cons_self
  have hbc : r.bufferChains (r.usedElements (r.completed.length % r.size)).id.toNat = some c.1 := by
    obtain ⟨h, hh, hbc⟩ := hrep.stored c hmem
    rw [Option.some.inj (hhead.symm.trans hh)]
    exact hbc
  have heq : (c.1.number, (r.usedElements (r.completed.length % r.size)).len) = e := by
    rw [hnumber, hlen]
  have hne : UInt16.ofNat d.reported.length ≠ r.tail := by
    rw [hrings.tail]
    intro h
    have hinj := (ofNat_inj hle (by omega)).mp h.symm
    omega
  have hcount := hrep.lengths c hmem
  have hsum := hrep'.count
  rw [descsOf, List.flatMap_cons, List.length_append] at hsum
  generalize hh : (r.usedElements (r.completed.length % r.size)).id.toNat = h at *
  obtain ⟨descs, freeHead, freeLast, hfree⟩ := free_frame h
    { r with
      tail := r.tail + 1
      bufferChains := Function.update r.bufferChains h none
      completed := r.completed ++ [e] }
  have hframe : Rep { r with tail := r.tail + 1, completed := r.completed ++ [e] } l
    (c :: (before ++ after)) := hrep'.frame
  have hrep'' := hframe.complete hhead
  rw [hfree] at hrep''
  refine ⟨c.1, (r.usedElements (r.completed.length % r.size)).len, _, hvalid c hmem, by omega, ?_,
    ⟨_, ⟨_, hrep'', (hrings.reorder hperm).complete he hnumber, ?_⟩, ?_⟩, ?_, rfl, id⟩
  · rw [completeLoop, if_neg hne, hrings.tail, masked_ofNat]
    simp only [hh, hbc, heq]
    rw [hrings.tail] at hfree
    rw [hfree]
  · intro b hb
    exact hvalid b (hperm.mem_iff.mpr (List.mem_cons_of_mem _ hb))
  · rw [List.length_append, hcount]
  · exact List.length_append

/-- `do_complete`, with a completion that keeps count of the free descriptors. -/
theorem Sound.doComplete {s : σ} (hs : Sound V r d l) (hP : P s l.length)
    (hcomplete : ∀ bc len s n, V bc.buffers → n + bc.buffers.length ≤ 2 ^ 15 → P s n →
      Ends (fun s' => P s' (n + bc.buffers.length)) (complete bc len s)) :
    Ends (fun sr => ∃ l', Sound V sr.2 d l' ∧ P sr.1 l'.length ∧ sr.2.completed = d.reported)
      (r.doComplete complete s) := by
  obtain ⟨chains, hrep, hrings, -⟩ := hs.carries
  have hle := hrings.completed.length_le
  have hfew := hrings.few hrep
  have hsize := Rep.size_lt r
  have hfuel : (r.usedIdx - r.tail).toNat = d.reported.length - r.completed.length := by
    rw [hrings.usedIdx, hrings.tail]
    exact ofNat_sub_toNat hle (by omega)
  rw [Vring.doComplete, hfuel, hrings.usedIdx]
  clear hfew hsize hfuel hrings hrep chains
  generalize hk : d.reported.length - r.completed.length = k
  induction k generalizing r s l with
  | zero =>
    obtain ⟨chains, hrep, hrings, hvalid⟩ := hs.carries
    have heq := hrings.completed.eq_of_length (by omega)
    exact ⟨l, hs, hP, heq⟩
  | succ k ih =>
    have hne : r.completed ≠ d.reported := by
      intro h
      rw [h] at hk
      omega
    obtain ⟨bc, len, r', hV, hroom, hrun, ⟨l', hc', hlen⟩, hcompleted, hconfig, hidx⟩ :=
      completeLoop_step (s := s) (k := k) hs.carries hne
    rw [hrun]
    have hbound : r.size ≤ 2 ^ 15 := Nat.pow_le_pow_right (by decide) r.config.log_le
    refine (hcomplete bc len s l.length hV (by omega) hP).bind fun s' hs' => ?_
    rw [← hlen] at hs'
    exact ih ⟨hc', hidx hs.availIdx⟩ hs' (by omega) (by omega)

/-- What the ring shows. -/
theorem Sound.shows (hs : Sound V r d l) :
    r.freeList = l ∧ (r.freeList ++ r.outstanding).Perm (List.range r.size) ∧
      r.completed <+: d.reported ∧
      (waiting r d ++ (d.held.map Prod.fst ++ d.reported.map Prod.fst)).Perm
        (List.range r.posted) := by
  obtain ⟨⟨chains, hrep, hrings, -⟩, -⟩ := hs
  exact ⟨hrep.freeList_eq, hrep.outstanding_perm, hrings.completed, hrings.once⟩

end Vring

/-! ## The semaphore -/

/-- The semaphore has `n` units, and these waiters. -/
structure Units (s : Semaphore) (n : Nat) (ws : List Waiter) : Prop where
  ordered : s.Ordered 0
  asleep : s.Asleep
  count : s.count = n
  waiters : s.waiters = ws

namespace Units

variable {s : Semaphore} {n k pr : Nat} {ws : List Waiter}

theorem current_eq (hu : Units s n ws) : current s = n := by
  rw [current, hu.count]
  rfl

theorem lt (hu : Units s n ws) : n < 2 ^ 63 := by
  have hup := hu.ordered.upper
  rw [hu.count] at hup
  omega

theorem mayProceed (hu : Units s n []) (hle : k ≤ n) : s.mayProceed k = true := by
  rw [Semaphore.mayProceed, Bool.and_eq_true, Semaphore.hasAvailableUnits_iff, hu.count]
  exact ⟨by omega, hu.ordered.empty_iff.mpr hu.waiters⟩

theorem fits (hu : Units s n ws) (hle : k ≤ n) : ssize (s.count - k) = ((n - k : Nat) : Int) := by
  have hlt := hu.lt
  rw [hu.count, ssize_of_fits (by omega) (by omega)]
  omega

theorem wait_take (hu : Units s n []) (hle : k ≤ n) :
    Units (s.wait false k) (n - k) [] ∧ ⟨s.calls, k⟩ ∈ (s.wait false k).granted := by
  have hspec : (s.wait false k).Ordered 0 ∧ (s.wait false k).Asleep :=
    Semaphore.wait_spec hu.ordered hu.asleep
  have hproceed : ({ s with calls := s.calls + 1 } : Semaphore).mayProceed k = true :=
    hu.mayProceed hle
  have heq : s.wait false k = ({ s with calls := s.calls + 1 } : Semaphore).take ⟨s.calls, k⟩ :=
    if_pos hproceed
  rw [heq] at hspec ⊢
  exact ⟨⟨hspec.1, hspec.2, hu.fits hle, hu.waiters⟩, List.mem_append_right _ (List.mem_singleton_self _)⟩

theorem wait_queue (hu : Units s 0 []) : Units (s.wait false 1) 0 [⟨s.calls, 1⟩] := by
  have hspec : (s.wait false 1).Ordered 0 ∧ (s.wait false 1).Asleep :=
    Semaphore.wait_spec hu.ordered hu.asleep
  have hproceed : ¬ ({ s with calls := s.calls + 1 } : Semaphore).mayProceed 1 = true := by
    intro h
    have hunits := (Bool.and_eq_true_iff.mp h).1
    rw [Semaphore.hasAvailableUnits_iff] at hunits
    have hcount := hu.count
    simp only at hunits
    omega
  have heq : s.wait false 1 = { s with
      calls := s.calls + 1
      waitList := s.waitList.pushBack ⟨s.calls, 1⟩ false } := by
    rw [Semaphore.wait, if_neg hproceed, if_neg (by simp [hu.ordered.notBroken])]
  rw [heq] at hspec ⊢
  refine ⟨hspec.1, hspec.2, hu.count, ?_⟩
  have hw := hu.waiters
  rw [Semaphore.waiters] at hw ⊢
  simp [hw]

theorem tryWait_all (hu : Units s n []) :
    (s.tryWait n).1 = true ∧ Units (s.tryWait n).2 0 [] := by
  have hspec : (s.tryWait n).2.Ordered 0 ∧ (s.tryWait n).2.Asleep :=
    Semaphore.tryWait_spec hu.ordered hu.asleep
  have hproceed : ({ s with calls := s.calls + 1 } : Semaphore).mayProceed n = true :=
    hu.mayProceed (Nat.le_refl n)
  have heq : s.tryWait n = (true, ({ s with calls := s.calls + 1 } : Semaphore).take ⟨s.calls, n⟩) :=
    if_pos hproceed
  have hfits := hu.fits (Nat.le_refl n)
  rw [Nat.sub_self] at hfits
  rw [heq] at hspec ⊢
  exact ⟨rfl, hspec.1, hspec.2, hfits, hu.waiters⟩

theorem signal (hu : Units s n []) (hlt : n + k < 2 ^ 63) :
    Units (s.signal k) (n + k) [] ∧ (s.signal k).granted = s.granted := by
  have hcount := hu.count
  have hspec : (s.signal k).Ordered 0 ∧ (s.signal k).Asleep := by
    apply Semaphore.signal_spec hu.ordered
    show ¬ 2 ^ 63 ≤ s.count + k
    omega
  have hsize : s.waitList.size = 0 := by
    have hempty := hu.ordered.empty_iff.mpr hu.waiters
    exact of_decide_eq_true hempty
  have heq : s.signal k = { s with count := ssize (s.count + k), signalled := s.signalled + k } := by
    rw [Semaphore.signal, if_neg (by simp [hu.ordered.notBroken]), hsize]
    rfl
  rw [heq] at hspec ⊢
  refine ⟨⟨hspec.1, hspec.2, ?_, hu.waiters⟩, rfl⟩
  show ssize (s.count + k) = _
  rw [ssize_of_fits (by omega) (by omega)]
  omega

/-- The units go to the waiter first. -/
theorem signal_waiter (hu : Units s 0 [⟨pr, 1⟩]) (hpos : 0 < k) (hlt : k < 2 ^ 63) :
    Units (s.signal k) (k - 1) [] ∧ ⟨pr, 1⟩ ∈ (s.signal k).granted := by
  have hcount := hu.count
  have hspec : (s.signal k).Ordered 0 ∧ (s.signal k).Asleep := by
    apply Semaphore.signal_spec hu.ordered
    show ¬ 2 ^ 63 ≤ s.count + k
    omega
  let t : Semaphore := { s with count := ssize (s.count + k), signalled := s.signalled + k }
  have htcount : t.count = k := by
    show ssize (s.count + k) = _
    rw [ssize_of_fits (by omega) (by omega)]
    omega
  have hfront : t.waitList.front = some ⟨pr, 1⟩ := by
    have hfront := hu.ordered.front
    rw [hu.waiters] at hfront
    exact hfront
  have hunits : t.hasAvailableUnits 1 = true := by
    rw [Semaphore.hasAvailableUnits_iff, htcount]
    omega
  have hsize : s.waitList.size = 1 := by
    have hlen := congrArg List.length hu.waiters
    rw [Semaphore.waiters, List.length_map] at hlen
    rw [hu.ordered.fifo.size, hlen]
    rfl
  have heq : s.signal k = { t.take ⟨pr, 1⟩ with waitList := t.waitList.popFront } := by
    rw [Semaphore.signal, if_neg (by simp [hu.ordered.notBroken]), hsize, Semaphore.grantFront, hfront]
    exact if_pos hunits
  rw [heq] at hspec ⊢
  refine ⟨⟨hspec.1, hspec.2, ?_, ?_⟩, List.mem_append_right _ (List.mem_singleton_self _)⟩
  · show ssize (t.count - (1 : Nat)) = _
    rw [htcount, ssize_of_fits (by omega) (by omega)]
    omega
  · have hlive := hu.ordered.fifo.live_popFront
    have hw := hu.waiters
    rw [Semaphore.waiters] at hw
    rw [Semaphore.waiters]
    show s.waitList.popFront.live.map Prod.snd = []
    rw [hlive, List.map_tail, hw]
    rfl

theorem initial (config : RingSize) : Units (Virtio.initial config) (2 ^ config.log) [] := by
  have hlt : 2 ^ config.log < 2 ^ 16 := Vring.Rep.size_lt (Vring.setup config)
  have hinit : Units (Semaphore.init 0) 0 [] := by
    refine ⟨.init (by decide), ?_, rfl, rfl⟩
    intro x hx
    cases hx
  have hsignal := (hinit.signal (k := 2 ^ config.log) (by omega)).1
  rw [Nat.zero_add] at hsignal
  exact hsignal

end Units

/-! ## `txq` -/

theorem TxPacket.prepend_length (size : UInt64) (p : TxPacket) :
    0 < (p.prepend size).length ∧ (p.prepend size).length ≤ p.frags.length + 1 := by
  rw [prepend]
  split
  · split
    · rename_i f fs _ hf
      rw [hf]
      simp
    · simp
  · split
    · rename_i f fs _ hf
      rw [hf]
      simp
    · simp

/-- The packets are packed without waiting, in descriptors that the semaphore had. -/
theorem pack_ok {headerLen : UInt64} {pb : List TxPacket} {s : Semaphore} {n : Nat}
    (hu : Units s n []) :
    ∃ chains rest s', Txq.pack headerLen pb s = .ok (chains, rest, s') ∧
      (chains.map List.length).sum ≤ n ∧ Units s' (n - (chains.map List.length).sum) [] ∧
      ∀ bs ∈ chains, bs ≠ [] := by
  induction pb generalizing s n with
  | nil => exact ⟨[], [], s, rfl, Nat.zero_le _, hu, fun bs hbs => by cases hbs⟩
  | cons p pb ih =>
    by_cases hroom : p.frags.length + 1 ≤ current s
    · obtain ⟨hpos, hle⟩ := p.prepend_length headerLen
      have hroom' := hroom
      rw [hu.current_eq] at hroom'
      obtain ⟨chains, rest, s', hrun, hsum, hu', hne⟩ :=
        ih (hu.wait_take (k := (p.prepend headerLen).length) (by omega)).1
      refine ⟨(p.prepend headerLen).map fragmentToBuffer :: chains, rest, s', ?_, ?_, ?_, ?_⟩
      · rw [Txq.pack, if_pos hroom]
        simp only [hu.mayProceed (k := (p.prepend headerLen).length) (by omega), if_true, hrun]
        rfl
      · rw [List.map_cons, List.sum_cons, List.length_map]
        omega
      · rw [List.map_cons, List.sum_cons, List.length_map, ← Nat.sub_sub]
        exact hu'
      · intro bs hbs
        rcases List.mem_cons.mp hbs with rfl | hbs
        · intro hnil
          rw [List.map_eq_nil_iff] at hnil
          rw [hnil] at hpos
          cases hpos
        · exact hne bs hbs
    · refine ⟨[], p :: pb, s, ?_, Nat.zero_le _, hu, fun bs hbs => by cases hbs⟩
      rw [Txq.pack, if_neg hroom]

/-- The semaphore counts the free descriptors. -/
def Txq.Inv (q : Txq) : Prop :=
  ∃ l, Vring.Sound (fun _ => True) q.ring q.dev l ∧ Units q.available l.length []

namespace Txq

variable {q : Txq}

theorem post_ok (headerLen : UInt64) (pb : List TxPacket) (hq : q.Inv) :
    ∃ q', q.post headerLen pb = .ok q' ∧ q'.Inv := by
  obtain ⟨l, hs, hu⟩ := hq
  obtain ⟨chains, rest, s', hpack, hsum, hu', hne⟩ := pack_ok hu
  obtain ⟨r', hpost, hs'⟩ := hs.post chains (fun bs hbs => ⟨hne bs hbs, trivial⟩) hsum
  refine ⟨{ q with ring := r', available := s' }, ?_, _, hs', ?_⟩
  · rw [post, hpack, ok_bind]
    simp only [hpost, ok_bind]
  · rw [List.length_drop]
    exact hu'

theorem poll_ends (hq : q.Inv) :
    Ends (fun q' => q'.Inv ∧ q'.ring.completed = q.dev.reported) q.poll := by
  obtain ⟨l, hs, hu⟩ := hq
  refine (hs.doComplete (P := fun s n => Units s n []) hu ?_).bind ?_
  · intro bc len s n _ hroom hu
    exact (hu.signal (by omega)).1
  · rintro ⟨s', r'⟩ ⟨l', hs', hu', hcompleted⟩
    exact ⟨⟨l', hs', hu'⟩, hcompleted⟩

end Txq

/-! ## `rxq` -/

/-- The buffers of a packet that is not complete: their descriptors are not given to the semaphore
yet. -/
def Received.pending (q : Received) : Nat :=
  if q.remainingBuffers = 0 then 0 else q.fragments.length

/-- The semaphore counts the free descriptors, but for the pending ones and for the one that the
loop over `prepare_buffers` has got. -/
def Credit (fiber : Fiber) (q : Received) (n : Nat) : Prop :=
  match fiber with
  | .start => ∃ c, Units q.available c [] ∧ c + q.pending = n
  | .waiting pr =>
    (∃ c, Units q.available c [] ∧ pr ∈ q.available.granted.map Waiter.pr ∧ c + 1 + q.pending = n) ∨
      Units q.available 0 [⟨pr, 1⟩] ∧ q.pending = n

namespace Credit

variable {fiber : Fiber} {q q' : Received} {n : Nat}

theorem congr (hc : Credit fiber q n) (havailable : q'.available = q.available)
    (hpending : q'.pending = q.pending) : Credit fiber q' n := by
  cases fiber with
  | start =>
    obtain ⟨c, hu, hn⟩ := hc
    exact ⟨c, havailable ▸ hu, by omega⟩
  | waiting pr =>
    rcases hc with ⟨c, hu, hmem, hn⟩ | ⟨hu, hn⟩
    · exact Or.inl ⟨c, havailable ▸ hu, havailable ▸ hmem, by omega⟩
    · exact Or.inr ⟨havailable ▸ hu, by omega⟩

/-- A buffer comes that is not the last of its packet. -/
theorem keep (hc : Credit fiber q n) (havailable : q'.available = q.available)
    (hpending : q'.pending = q.pending + 1) : Credit fiber q' (n + 1) := by
  cases fiber with
  | start =>
    obtain ⟨c, hu, hn⟩ := hc
    exact ⟨c, havailable ▸ hu, by omega⟩
  | waiting pr =>
    rcases hc with ⟨c, hu, hmem, hn⟩ | ⟨hu, hn⟩
    · exact Or.inl ⟨c, havailable ▸ hu, havailable ▸ hmem, by omega⟩
    · exact Or.inr ⟨havailable ▸ hu, by omega⟩

/-- The last buffer of a packet comes: all its descriptors are given to the semaphore. -/
theorem signal (hc : Credit fiber q n) (hn : n < 2 ^ 15)
    (havailable : q'.available = q.available.signal (q.pending + 1)) (hpending : q'.pending = 0) :
    Credit fiber q' (n + 1) := by
  cases fiber with
  | start =>
    obtain ⟨c, hu, hsum⟩ := hc
    have hsignal := (hu.signal (k := q.pending + 1) (by omega)).1
    rw [← havailable] at hsignal
    exact ⟨_, hsignal, by omega⟩
  | waiting pr =>
    rcases hc with ⟨c, hu, hmem, hsum⟩ | ⟨hu, hsum⟩
    · obtain ⟨hsignal, hgranted⟩ := hu.signal (k := q.pending + 1) (by omega)
      rw [← hgranted] at hmem
      rw [← havailable] at hsignal hmem
      exact Or.inl ⟨_, hsignal, hmem, by omega⟩
    · obtain ⟨hsignal, hgranted⟩ := hu.signal_waiter (k := q.pending + 1) (by omega) (by omega)
      rw [← havailable] at hsignal hgranted
      exact Or.inl ⟨_, hsignal, List.mem_map_of_mem hgranted, by omega⟩

end Credit

theorem completeBuffer_ends {headerLen : UInt64} {fiber : Fiber} {bc : Chain} {len : UInt32}
    {q : Received} {n : Nat} (hc : Credit fiber q n) (hn : n < 2 ^ 15) :
    Ends (fun q' => Credit fiber q' (n + 1)) (completeBuffer headerLen bc len q) := by
  -- the buffer is put behind those of its packet, which may be complete then
  have hpush : ∀ (left : UInt32) (fragments : List (Nat × UInt64)) (f : Nat × UInt64),
      fragments.length = q.pending →
      Ends (fun q' => Credit fiber q' (n + 1)) (if left = 0 then
        .ok { q with
          remainingBuffers := left
          fragments := fragments ++ [f]
          packets := q.packets ++ [fragments ++ [f]]
          available := q.available.signal (fragments ++ [f]).length }
        else .ok { q with remainingBuffers := left, fragments := fragments ++ [f] }) := by
    intro left fragments f hlen
    by_cases hlast : left = 0
    · rw [if_pos hlast]
      refine hc.signal hn ?_ (if_pos hlast)
      rw [List.length_append, hlen]
      rfl
    · rw [if_neg hlast]
      have hkeep : Credit fiber { q with remainingBuffers := left, fragments := fragments ++ [f] } (n + 1) := by
        apply hc.keep
        · rfl
        · rw [Received.pending, if_neg hlast, List.length_append, hlen]
          rfl
      exact hkeep
  rw [completeBuffer]
  by_cases hfirst : q.remainingBuffers = 0
  · rw [if_pos hfirst]
    by_cases hzero : q.numBuffers bc.number = 0
    · rw [if_pos hzero]
      rfl
    · rw [if_neg hzero, ok_bind]
      exact hpush _ [] _ (if_pos hfirst).symm
  · rw [if_neg hfirst, ok_bind]
    exact hpush _ q.fragments _ (if_neg hfirst).symm

/-- What the loop over `prepare_buffers` and `complete_buffer` keep. -/
def Rxq.Inv (q : Rxq) : Prop :=
  ∃ l, Vring.Sound (fun bs => bs.length = 1) q.ring q.dev l ∧ Credit q.fiber q.received l.length

namespace Rxq

variable {q : Rxq}

theorem prepareBuffers_inv (hq : q.Inv) : q.prepareBuffers.Inv := by
  obtain ⟨l, hs, hc⟩ := hq
  rw [prepareBuffers]
  split
  · rename_i hfiber
    rw [hfiber] at hc
    obtain ⟨c, hu, hsum⟩ := hc
    refine ⟨l, hs, ?_⟩
    by_cases hpos : 1 ≤ c
    · obtain ⟨hwait, hgranted⟩ := hu.wait_take hpos
      refine Or.inl ⟨_, hwait, List.mem_map_of_mem hgranted, ?_⟩
      show c - 1 + 1 + q.received.pending = l.length
      omega
    · obtain rfl : c = 0 := by omega
      refine Or.inr ⟨hu.wait_queue, ?_⟩
      show q.received.pending = l.length
      omega
  · exact ⟨l, hs, hc⟩

/-- A call that waits has not been granted. -/
theorem not_granted {s : Semaphore} {n pr : Nat} {w : Waiter} (hu : Units s n [w]) (hw : w.pr = pr) :
    pr ∉ s.granted.map Waiter.pr := by
  intro hmem
  obtain ⟨x, hx, hpr⟩ := List.mem_map.mp hmem
  have hcalls := hu.ordered.calls
  rw [hu.waiters, List.pairwise_append] at hcalls
  have hlt := hcalls.2.2 x hx w (List.mem_singleton_self _)
  omega

theorem postBuffers_ok (mem : Nat → UInt64) (hq : q.Inv) :
    ∃ q', q.postBuffers mem = .ok q' ∧ q'.Inv := by
  have hq' := hq
  obtain ⟨l, hs, hc⟩ := hq
  cases hfiber : q.fiber with
  | start =>
    refine ⟨q, ?_, hq'⟩
    rw [postBuffers, hfiber]
  | waiting pr =>
    rw [hfiber] at hc
    by_cases hready : pr ∈ q.received.available.granted.map Waiter.pr
    · rcases hc with ⟨c, hu, -, hsum⟩ | ⟨hu, hsum⟩
      · obtain ⟨hmore, hu'⟩ := hu.tryWait_all
        let chains : List (List Buffer) := (List.range (1 + c)).map fun i => [⟨mem i, 4096, true⟩]
        have hlen : (chains.map List.length).sum = 1 + c := by
          have hones : chains.map List.length = List.replicate (1 + c) 1 := by
            rw [List.map_map, List.eq_replicate_iff]
            refine ⟨by simp, ?_⟩
            intro b hb
            obtain ⟨i, -, rfl⟩ := List.mem_map.mp hb
            rfl
          rw [hones, List.sum_replicate_nat, Nat.mul_one]
        obtain ⟨r', hpost, hs'⟩ := hs.post chains (by
          intro bs hbs
          obtain ⟨i, -, rfl⟩ := List.mem_map.mp hbs
          exact ⟨List.cons_ne_nil _ _, rfl⟩) (by omega)
        refine ⟨{ q with
          ring := r'
          received := { q.received with available := (q.received.available.tryWait c).2 }
          fiber := .start }, ?_, _, hs', 0, hu', ?_⟩
        · rw [postBuffers, hfiber]
          simp only [if_pos hready, hu.current_eq, hmore, if_true, chains] at hpost ⊢
          rw [hpost]
          rfl
        · rw [List.length_drop, hlen]
          show 0 + q.received.pending = _
          omega
      · exact absurd hready (not_granted hu rfl)
    · refine ⟨q, ?_, hq'⟩
      rw [postBuffers, hfiber]
      exact if_neg hready

theorem poll_ends (headerLen : UInt64) (hq : q.Inv) :
    Ends (fun q' => q'.Inv ∧ q'.ring.completed = q.dev.reported) (q.poll headerLen) := by
  obtain ⟨l, hs, hc⟩ := hq
  refine (hs.doComplete (P := Credit q.fiber) hc ?_).bind ?_
  · intro bc len s n hone hroom hc
    rw [hone] at hroom ⊢
    exact completeBuffer_ends hc (by omega)
  · rintro ⟨s', r'⟩ ⟨l', hs', hc', hcompleted⟩
    exact ⟨⟨l', hs', hc'⟩, hcompleted⟩

end Rxq

/-! ## Runs -/

namespace Qp

variable {q : Qp} {es : List Event}

def Inv (q : Qp) : Prop := q.tx.Inv ∧ q.rx.Inv

theorem Inv.init (headerLen : UInt64) (tx rx : RingSize) : (Qp.init headerLen tx rx).Inv := by
  have hlen : ∀ config : RingSize, (List.range (2 ^ config.log)).length = 2 ^ config.log :=
    fun config => List.length_range
  refine ⟨⟨_, ⟨.setup tx, rfl⟩, ?_⟩, _, ⟨.setup rx, rfl⟩, 2 ^ rx.log, ?_, ?_⟩
  · rw [hlen]
    exact .initial tx
  · exact .initial rx
  · rw [hlen]
    rfl

theorem step_ends (hq : q.Inv) (e : Event) : Ends Inv (step q e) := by
  obtain ⟨htx, hrx⟩ := hq
  cases e with
  | send pb =>
    obtain ⟨tx, hrun, htx'⟩ := Txq.post_ok q.headerLen pb htx
    rw [step, hrun]
    exact ⟨htx', hrx⟩
  | pollTx => exact (Txq.poll_ends htx).bind fun tx htx' => ⟨htx'.1, hrx⟩
  | prepareBuffers => exact ⟨htx, Rxq.prepareBuffers_inv hrx⟩
  | postBuffers mem =>
    obtain ⟨rx, hrun, hrx'⟩ := Rxq.postBuffers_ok mem hrx
    rw [step, hrun]
    exact ⟨htx, hrx'⟩
  | pollRx => exact (Rxq.poll_ends q.headerLen hrx).bind fun rx hrx' => ⟨htx, hrx'.1⟩
  | takeTx =>
    obtain ⟨l, hs, hu⟩ := htx
    exact ⟨⟨l, hs.take, hu⟩, hrx⟩
  | giveTx i len =>
    obtain ⟨l, hs, hu⟩ := htx
    exact ⟨⟨l, hs.give i len, hu⟩, hrx⟩
  | takeRx =>
    obtain ⟨l, hs, hc⟩ := hrx
    exact ⟨htx, l, hs.take, hc⟩
  | giveRx i len numBuffers =>
    obtain ⟨l, hs, hc⟩ := hrx
    exact ⟨htx, l, hs.give i len, hc.congr rfl rfl⟩

theorem run_ends (hq : q.Inv) : Ends Inv (Run.run step q es) := by
  induction es generalizing q with
  | nil => exact hq
  | cons e es ih => exact (step_ends hq e).bind fun q' hq' => ih hq'

/-- A descriptor is free or in one outstanding chain, no more of them are credited than are free, and
the chains completed are those that the device returned, in turn and with their lengths; each chain
posted was returned, or is with the device, or waits for it. -/
structure Conserved (r : Vring) (d : Device) (available : Semaphore) : Prop where
  descs : (r.freeList ++ r.outstanding).Perm (List.range r.size)
  credit : current available ≤ r.freeList.length
  completed : r.completed <+: d.reported
  once : (Vring.waiting r d ++ (d.held.map Prod.fst ++ d.reported.map Prod.fst)).Perm
    (List.range r.posted)

theorem Inv.tx_conserved (hq : q.Inv) : Conserved q.tx.ring q.tx.dev q.tx.available := by
  obtain ⟨l, hs, hu⟩ := hq.1
  obtain ⟨hlist, hdescs, hcompleted, honce⟩ := hs.shows
  refine ⟨hdescs, ?_, hcompleted, honce⟩
  rw [hu.current_eq, hlist]

theorem Inv.rx_conserved (hq : q.Inv) : Conserved q.rx.ring q.rx.dev q.rx.received.available := by
  obtain ⟨l, hs, hc⟩ := hq.2
  obtain ⟨hlist, hdescs, hcompleted, honce⟩ := hs.shows
  refine ⟨hdescs, ?_, hcompleted, honce⟩
  rw [hlist]
  cases hfiber : q.rx.fiber with
  | start =>
    rw [hfiber] at hc
    obtain ⟨c, hu, hsum⟩ := hc
    rw [hu.current_eq]
    omega
  | waiting pr =>
    rw [hfiber] at hc
    rcases hc with ⟨c, hu, -, hsum⟩ | ⟨hu, -⟩
    · rw [hu.current_eq]
      omega
    · rw [hu.current_eq]
      omega

/-- In every run nothing but a header without buffers stops the driver, both rings conserve their
descriptors and chains, and a poll completes all that was returned. -/
theorem run_conserves_descriptors (headerLen : UInt64) (tx rx : RingSize) (es : List Event) :
    (∀ f, Run.run step (init headerLen tx rx) es = .error f → f = .noBuffers) ∧
    ∀ q, Run.run step (init headerLen tx rx) es = .ok q →
      Conserved q.tx.ring q.tx.dev q.tx.available ∧
      Conserved q.rx.ring q.rx.dev q.rx.received.available ∧
      (∀ t, q.tx.poll = .ok t → t.ring.completed = q.tx.dev.reported) ∧
      ∀ t, q.rx.poll q.headerLen = .ok t → t.ring.completed = q.rx.dev.reported := by
  have hends : Ends Inv (Run.run step (init headerLen tx rx) es) :=
    run_ends (Inv.init headerLen tx rx)
  constructor
  · intro f hf
    rw [hf] at hends
    exact hends
  · intro q hq
    rw [hq] at hends
    have hinv : q.Inv := hends
    refine ⟨hinv.tx_conserved, hinv.rx_conserved, ?_, ?_⟩
    · intro t ht
      have hpoll := Txq.poll_ends hinv.1
      rw [ht] at hpoll
      exact hpoll.2
    · intro t ht
      have hpoll := Rxq.poll_ends q.headerLen hinv.2
      rw [ht] at hpoll
      exact hpoll.2

/-- Two buffers are posted, and return in the other order as two packets. -/
theorem run_conserves_descriptors_received :
    let es := [.prepareBuffers, .postBuffers fun _ => 0, .takeRx, .takeRx, .giveRx 1 60 1,
      .giveRx 0 100 1, .pollRx]
    ∃ q, Run.run step (init 12 ⟨1, by decide⟩ ⟨1, by decide⟩) es = .ok q ∧
      q.rx.ring.completed = [(1, 60), (0, 100)] ∧
      Conserved q.rx.ring q.rx.dev q.rx.received.available := by
  intro es
  have hend : (Run.run step (init 12 ⟨1, by decide⟩ ⟨1, by decide⟩) es).map
      (fun q => q.rx.ring.completed) = .ok [(1, 60), (0, 100)] := by decide +kernel
  obtain ⟨q, hq, hcompleted⟩ := map_ok.mp hend
  have hrun := run_conserves_descriptors 12 ⟨1, by decide⟩ ⟨1, by decide⟩ es
  exact ⟨q, hq, hcompleted, (hrun.2 q hq).2.1⟩

end Qp

end Seastar.Net.Virtio
