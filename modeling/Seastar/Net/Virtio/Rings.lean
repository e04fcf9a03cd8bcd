import Mathlib.Data.List.Infix
import Seastar.Net.Virtio.FreeList

/-!
The two rings of a queue carry the chains: the driver posts them in turn, the device takes them in
that order and returns them in any, and the driver completes what was returned. No entry is
overwritten before it is read, whatever the 16-bit indices are, since there are no more chains than
descriptors.
-/

namespace Seastar.Net.Virtio

open Lib

/-! ## Indices of 16 bits -/

theorem ofNat_succ (n : Nat) : UInt16.ofNat n + 1 = UInt16.ofNat (n + 1) := by
  rw [UInt16.ofNat_add]
  rfl

theorem ofNat_inj {m n : Nat} (hle : m ≤ n) (hlt : n < m + 2 ^ 16) :
    UInt16.ofNat m = UInt16.ofNat n ↔ m = n := by
  constructor
  · intro h
    have hnat := congrArg UInt16.toNat h
    rw [UInt16.toNat_ofNat', UInt16.toNat_ofNat'] at hnat
    omega
  · rintro rfl
    rfl

theorem ofNat_sub_toNat {m n : Nat} (hle : m ≤ n) (hlt : n < m + 2 ^ 16) :
    (UInt16.ofNat n - UInt16.ofNat m).toNat = n - m := by
  rw [← UInt16.ofNat_sub hle, UInt16.toNat_ofNat', Nat.mod_eq_of_lt (by omega)]

/-- Different places of a window as large as the ring are different entries. -/
theorem mod_ne {m n size : Nat} (hne : m ≠ n) (hm : m < n + size) (hn : n < m + size) :
    m % size ≠ n % size := by
  intro h
  rcases Nat.lt_or_gt_of_ne hne with hlt | hlt
  · have hzero := Nat.sub_mod_eq_zero_of_mod_eq h.symm
    rw [Nat.mod_eq_of_lt (by omega)] at hzero
    omega
  · have hzero := Nat.sub_mod_eq_zero_of_mod_eq h
    rw [Nat.mod_eq_of_lt (by omega)] at hzero
    omega

namespace Vring

variable {r r' : Vring} {d : Device} {l : List Nat} {chains rest : List (Chain × List Nat)}
  {c : Chain × List Nat} {bs : List Buffer} {h i n : Nat}

theorem masked_ofNat (r : Vring) (n : Nat) : r.masked (UInt16.ofNat n) = n % r.size := by
  have hdvd : 2 ^ r.config.log ∣ 2 ^ 16 :=
    Nat.pow_dvd_pow 2 (Nat.le_succ_of_le r.config.log_le)
  rw [masked, size, Nat.and_two_pow_sub_one_eq_mod, UInt16.toNat_ofNat', Nat.mod_mod_of_dvd n hdvd]

/-! ## Chains on their way -/

/-- The chain with this number has this head. -/
def Heads (chains : List (Chain × List Nat)) (n h : Nat) : Prop :=
  ∃ c ∈ chains, c.1.number = n ∧ c.2.head? = some h

theorem Heads.cons (hh : Heads chains n h) : Heads (c :: chains) n h := by
  obtain ⟨b, hb, hbs⟩ := hh
  exact ⟨b, List.mem_cons_of_mem _ hb, hbs⟩

/-- The chain is not the first one. -/
theorem Heads.tail (hh : Heads (c :: chains) n h) (hne : n ≠ c.1.number) : Heads chains n h := by
  obtain ⟨b, hb, hn, hbs⟩ := hh
  rcases List.mem_cons.mp hb with rfl | hb
  · exact absurd hn.symm hne
  · exact ⟨b, hb, hn, hbs⟩

/-- The chains that the device has not taken. -/
def waiting (r : Vring) (d : Device) : List Nat := List.range' d.taken (r.posted - d.taken)

/-- The indices of the rings, and where the chains are. -/
structure Rings (r : Vring) (d : Device) (chains : List (Chain × List Nat)) : Prop where
  head : r.head = UInt16.ofNat r.posted
  idx : d.idx = UInt16.ofNat d.taken
  usedIdx : r.usedIdx = UInt16.ofNat d.reported.length
  tail : r.tail = UInt16.ofNat r.completed.length
  completed : r.completed <+: d.reported
  taken : d.taken ≤ r.posted
  once : (waiting r d ++ (d.held.map Prod.fst ++ d.reported.map Prod.fst)).Perm (List.range r.posted)
  numbers : (chains.map fun c => c.1.number).Perm
    (waiting r d ++ (d.held.map Prod.fst ++ (d.reported.drop r.completed.length).map Prod.fst))
  avail : ∀ n, d.taken ≤ n → n < r.posted → Heads chains n (r.availRing (n % r.size)).toNat
  held : ∀ e ∈ d.held, Heads chains e.1 e.2.toNat
  used : ∀ j e, r.completed.length ≤ j → d.reported[j]? = some e →
    Heads chains e.1 (r.usedElements (j % r.size)).id.toNat ∧ (r.usedElements (j % r.size)).len = e.2

namespace Rings

theorem setup (config : RingSize) : Rings (Vring.setup config) {} [] := by
  refine ⟨rfl, rfl, rfl, rfl, List.prefix_refl _, Nat.le_refl _, ?_, ?_, ?_, ?_, ?_⟩
  · exact List.Perm.refl _
  · exact List.Perm.refl _
  · exact fun n _ hn => by cases hn
  · exact fun e he => by cases he
  · exact fun j e _ he => by cases he

/-- The order of the chains does not matter. -/
theorem reorder {chains' : List (Chain × List Nat)} (hr : Rings r d chains)
    (hp : chains.Perm chains') : Rings r d chains' := by
  have hheads : ∀ n h, Heads chains n h → Heads chains' n h := by
    rintro n h ⟨c, hc, hs⟩
    exact ⟨c, hp.mem_iff.mp hc, hs⟩
  refine ⟨hr.head, hr.idx, hr.usedIdx, hr.tail, hr.completed, hr.taken, hr.once, ?_, ?_, ?_, ?_⟩
  · exact (hp.map _).symm.trans hr.numbers
  · exact fun n hn hlt => hheads _ _ (hr.avail n hn hlt)
  · exact fun e he => hheads _ _ (hr.held e he)
  · exact fun j e hj he => ⟨hheads _ _ (hr.used j e hj he).1, (hr.used j e hj he).2⟩

theorem length (hr : Rings r d chains) : chains.length =
    (r.posted - d.taken) + (d.held.length + (d.reported.length - r.completed.length)) := by
  have hlen := hr.numbers.length_eq
  simpa [waiting] using hlen

/-- There are no more chains on their way than descriptors. -/
theorem few (hr : Rings r d chains) (hrep : Rep r l chains) :
    l.length + (r.posted - d.taken) + d.held.length + (d.reported.length - r.completed.length) ≤
      r.size := by
  have hlen := hr.length
  have hle := hrep.chains_le
  omega

/-- A chain is posted. -/
theorem postChain (hr : Rings r d chains) (hfew : r.posted - d.taken < r.size)
    {descs : Nat → Desc} {freeHead freeLast : Option Nat} {bufferChains : Nat → Option Chain}
    {ds : List Nat} (hh : ds.head? = some h) (hsmall : (UInt16.ofNat h).toNat = h) :
    Rings { r with
      descs, freeHead, freeLast, bufferChains
      availRing := Function.update r.availRing (r.masked r.head) (UInt16.ofNat h)
      head := r.head + 1
      posted := r.posted + 1 } d ((⟨r.posted, bs⟩, ds) :: chains) := by
  have htaken := hr.taken
  have hwaiting : waiting { r with
      descs, freeHead, freeLast, bufferChains
      availRing := Function.update r.availRing (r.masked r.head) (UInt16.ofNat h)
      head := r.head + 1
      posted := r.posted + 1 } d = waiting r d ++ [r.posted] := by
    have hlen : r.posted + 1 - d.taken = r.posted - d.taken + 1 := by omega
    have hlast : d.taken + (r.posted - d.taken) = r.posted := by omega
    simp only [waiting, hlen]
    rw [List.range'_concat, Nat.one_mul, hlast]
  refine ⟨?_, hr.idx, hr.usedIdx, hr.tail, hr.completed, ?_, ?_, ?_, ?_, ?_, ?_⟩
  · show r.head + 1 = _
    rw [hr.head, ofNat_succ]
  · exact Nat.le_succ_of_le htaken
  · rw [hwaiting]
    show List.Perm _ (List.range (r.posted + 1))
    rw [List.range_succ, List.append_assoc]
    refine List.Perm.trans ?_ (hr.once.append_right _)
    rw [List.append_assoc]
    exact List.perm_append_comm.append_left _
  · rw [hwaiting, List.map_cons, List.append_assoc]
    refine (hr.numbers.cons r.posted).trans ?_
    exact List.perm_middle.symm
  · intro n hn hlt
    have hlt : n < r.posted + 1 := hlt
    show Heads _ n (Function.update r.availRing (r.masked r.head) (UInt16.ofNat h) (n % r.size)).toNat
    rw [hr.head, masked_ofNat]
    by_cases hne : n = r.posted
    · subst hne
      rw [Function.update_self, hsmall]
      exact ⟨_, List.mem_cons_self, rfl, hh⟩
    · rw [Function.update_of_ne (mod_ne hne (by omega) (by omega))]
      exact (hr.avail n hn (by omega)).cons
  · exact fun e he => (hr.held e he).cons
  · exact fun j e hj he => ⟨(hr.used j e hj he).1.cons, (hr.used j e hj he).2⟩

theorem nodup (hr : Rings r d chains) :
    (waiting r d ++ (d.held.map Prod.fst ++ d.reported.map Prod.fst)).Nodup :=
  hr.once.nodup_iff.mpr List.nodup_range

/-- The device takes a chain. -/
theorem take (hr : Rings r d chains) (hrep : Rep r l chains) (hidx : r.availIdx = r.head) :
    Rings r (d.take r) chains := by
  have hfew := hr.few hrep
  have hsize := Rep.size_lt r
  have htaken := hr.taken
  by_cases heq : d.idx = r.availIdx
  · rw [Device.take, if_pos heq]
    exact hr
  · have hlt : d.taken < r.posted := by
      refine lt_of_le_of_ne htaken fun h => heq ?_
      rw [hidx, hr.idx, hr.head, h]
    rw [Device.take, if_neg heq]
    have hwaiting : waiting r d = d.taken :: List.range' (d.taken + 1) (r.posted - (d.taken + 1)) := by
      have hlen : r.posted - d.taken = r.posted - (d.taken + 1) + 1 := by omega
      rw [waiting, hlen, List.range'_succ]
    have hmove : ∀ t : List Nat, (waiting r d ++ (d.held.map Prod.fst ++ t)).Perm
        (List.range' (d.taken + 1) (r.posted - (d.taken + 1)) ++
          ((d.held ++ [(d.taken, r.availRing (r.masked d.idx))]).map Prod.fst ++ t)) := by
      intro t
      rw [hwaiting, List.perm_iff_count]
      intro b
      simp only [List.map_append, List.map_singleton, List.count_append, List.count_cons,
        List.count_nil]
      omega
    refine ⟨hr.head, ?_, hr.usedIdx, hr.tail, hr.completed, hlt, ?_, ?_, ?_, ?_, ?_⟩
    · show d.idx + 1 = _
      rw [hr.idx, ofNat_succ]
    · exact (hmove _).symm.trans hr.once
    · exact hr.numbers.trans (hmove _)
    · exact fun n hn hlt => hr.avail n (Nat.le_of_succ_le hn) hlt
    · intro e he
      rcases List.mem_append.mp he with he | he
      · exact hr.held e he
      · obtain rfl := List.mem_singleton.mp he
        rw [hr.idx, masked_ofNat]
        exact hr.avail _ (Nat.le_refl _) hlt
    · exact hr.used

/-- The device returns a chain. -/
theorem give (hr : Rings r d chains) (hrep : Rep r l chains) (i : Nat) (len : UInt32) :
    Rings (d.give i len r).1 (d.give i len r).2 chains := by
  have hfew := hr.few hrep
  cases hi : d.held[i]? with
  | none =>
    simp only [Device.give, hi]
    exact hr
  | some e =>
    obtain ⟨number, head⟩ := e
    obtain ⟨hlt, hget⟩ := List.getElem?_eq_some_iff.mp hi
    have hperm := List.getElem_cons_eraseIdx_perm hlt
    rw [hget] at hperm
    have hmove : ∀ t : List Nat, (waiting r d ++ (d.held.map Prod.fst ++ t)).Perm
        (waiting r d ++ ((d.held.eraseIdx i).map Prod.fst ++ (t ++ [number]))) := by
      intro t
      rw [List.perm_iff_count]
      intro b
      have hcount := (hperm.map Prod.fst).count_eq b
      rw [List.map_cons, List.count_cons] at hcount
      dsimp only at hcount
      simp only [List.count_append, List.count_cons, List.count_nil]
      omega
    simp only [Device.give, hi]
    refine ⟨hr.head, hr.idx, ?_, hr.tail, ?_, hr.taken, ?_, ?_, hr.avail, ?_, ?_⟩
    · show r.usedIdx + 1 = _
      rw [hr.usedIdx, ofNat_succ, List.length_append, List.length_singleton]
    · exact hr.completed.trans (List.prefix_append ..)
    · rw [List.map_append, List.map_singleton]
      exact (hmove _).symm.trans hr.once
    · have hdrop : (d.reported ++ [(number, len)]).drop r.completed.length =
          d.reported.drop r.completed.length ++ [(number, len)] :=
        List.drop_append_of_le_length hr.completed.length_le
      rw [hdrop, List.map_append, List.map_singleton]
      exact hr.numbers.trans (hmove _)
    · exact fun e he => hr.held e (List.mem_of_mem_eraseIdx he)
    · intro j e hj he
      show Heads chains e.1 (Function.update r.usedElements (r.masked r.usedIdx) _ (j % r.size)).id.toNat ∧
        (Function.update r.usedElements (r.masked r.usedIdx) _ (j % r.size)).len = e.2
      have hjle : j < d.reported.length + 1 := by
        have hj := (List.getElem?_eq_some_iff.mp he).1
        rwa [List.length_append, List.length_singleton] at hj
      have hj : r.completed.length ≤ j := hj
      rw [hr.usedIdx, masked_ofNat]
      by_cases hne : j = d.reported.length
      · subst hne
        rw [List.getElem?_concat_length] at he
        obtain rfl := Option.some.inj he
        rw [Function.update_self]
        have hhead := hr.held _ (List.mem_of_getElem? hi)
        refine ⟨?_, rfl⟩
        show Heads chains number head.toUInt32.toNat
        rw [UInt16.toNat_toUInt32]
        exact hhead
      · rw [Function.update_of_ne (mod_ne hne (by omega) (by omega))]
        rw [List.getElem?_append_left (by omega)] at he
        exact hr.used j e hj he

/-- A returned chain is completed. -/
theorem complete {e : Nat × UInt32} (hr : Rings r d (c :: rest))
    (he : d.reported[r.completed.length]? = some e) (hc : c.1.number = e.1)
    {descs : Nat → Desc} {freeHead freeLast : Option Nat} {bufferChains : Nat → Option Chain} :
    Rings { r with
      descs, freeHead, freeLast, bufferChains
      tail := r.tail + 1
      completed := r.completed ++ [e] } d rest := by
  obtain ⟨hlt, hget⟩ := List.getElem?_eq_some_iff.mp he
  have hmem : e.1 ∈ d.reported.map Prod.fst := List.mem_map_of_mem (List.mem_of_getElem? he)
  obtain ⟨hw, hrest, hdisj⟩ := List.nodup_append.mp hr.nodup
  obtain ⟨hh, hrep, hdisj'⟩ := List.nodup_append.mp hrest
  have hlen : (r.completed ++ [e]).length = r.completed.length + 1 := List.length_append
  refine ⟨hr.head, hr.idx, hr.usedIdx, ?_, ?_, hr.taken, hr.once, ?_, ?_, ?_, ?_⟩
  · show r.tail + 1 = _
    rw [hr.tail, ofNat_succ, hlen]
  · show r.completed ++ [e] <+: d.reported
    rw [List.prefix_iff_eq_take, hlen, List.take_add_one, he,
      ← List.prefix_iff_eq_take.mp hr.completed]
    rfl
  · show List.Perm _ (waiting r d ++ (d.held.map Prod.fst ++
      (d.reported.drop (r.completed ++ [e]).length).map Prod.fst))
    have hnum := hr.numbers
    rw [List.drop_eq_getElem_cons hlt, hget, List.map_cons, List.map_cons, hc] at hnum
    rw [hlen]
    refine List.Perm.cons_inv (a := e.1) (hnum.trans ?_)
    rw [List.perm_iff_count]
    intro b
    simp only [List.count_append, List.count_cons]
    omega
  · intro n hn hlt
    have hlt : n < r.posted := hlt
    refine (hr.avail n hn hlt).tail ?_
    rw [hc]
    refine hdisj n ?_ e.1 (List.mem_append_right _ hmem)
    rw [waiting, List.mem_range'_1]
    omega
  · intro b hb
    refine (hr.held b hb).tail ?_
    rw [hc]
    exact hdisj' b.1 (List.mem_map_of_mem hb) e.1 hmem
  · intro j b hj hb
    have hj : r.completed.length + 1 ≤ j := by
      rw [← hlen]
      exact hj
    have hused := hr.used j b (Nat.le_of_succ_le hj) hb
    refine ⟨hused.1.tail ?_, hused.2⟩
    rw [hc]
    intro heq
    have hj1 : (d.reported.map Prod.fst)[j]? = some b.1 := by rw [List.getElem?_map, hb]; rfl
    have hj2 : (d.reported.map Prod.fst)[r.completed.length]? = some e.1 := by
      rw [List.getElem?_map, he]
      rfl
    have hidx : j = r.completed.length :=
      (List.getElem?_inj (List.getElem?_eq_some_iff.mp hj1).1 hrep).mp
        (hj1.trans (by rw [hj2, heq]))
    omega

end Rings

end Vring

end Seastar.Net.Virtio
