import Mathlib.Data.List.Nodup
import Mathlib.Data.List.Perm.Basic
import Seastar.Net.Virtio.Vring

/-!
The descriptors of a ring: each is in the free list or in one chain. A chain takes its descriptors
from the front of the free list and gives them back at the end.
-/

namespace Seastar.Net.Virtio

open Lib

namespace Vring

variable {r : Vring} {l l' : List Nat} {a b n k : Nat} {descs : Nat → Desc}

/-- Descriptors that are linked by `_next`. -/
def Linked (descs : Nat → Desc) (l : List Nat) : Prop :=
  l.IsChain fun a b => (descs a).next.toNat = b

/-- Descriptors that are linked to a chain. -/
def Chained (descs : Nat → Desc) : List Nat → Prop
  | [] => True
  | [a] => (descs a).hasNext = false
  | a :: b :: l => (descs a).hasNext = true ∧ (descs a).next.toNat = b ∧ Chained descs (b :: l)

theorem Linked.congr {descs' : Nat → Desc} (hl : Linked descs l)
    (heq : ∀ a ∈ l, descs' a = descs a) : Linked descs' l := by
  apply List.IsChain.imp_of_mem_imp _ hl
  intro a b ha _ hab
  rw [heq a ha]
  exact hab

theorem Chained.congr {descs' : Nat → Desc} (hl : Chained descs l)
    (heq : ∀ a ∈ l, descs' a = descs a) : Chained descs' l := by
  induction l with
  | nil => trivial
  | cons a l ih =>
    have ha := heq a List.mem_cons_self
    cases l with
    | nil =>
      rw [Chained] at hl ⊢
      rw [ha]
      exact hl
    | cons b l =>
      obtain ⟨hnext, hb, hrest⟩ := hl
      refine ⟨?_, ?_, ih hrest fun c hc => heq c (List.mem_cons_of_mem _ hc)⟩
      · rw [ha]
        exact hnext
      · rw [ha]
        exact hb

/-- Only the link matters of a descriptor that has a next one. -/
theorem Chained.linked (hl : Chained descs l) : Linked descs l := by
  induction l with
  | nil => exact .nil
  | cons a l ih =>
    cases l with
    | nil => exact .singleton a
    | cons b l => exact .cons_cons hl.2.1 (ih hl.2.2)

/-- The walk of `do_complete` comes to the last descriptor of a chain. -/
theorem Chained.chainEnd (hl : Chained descs (a :: l)) (hk : l.length ≤ k) :
    some (chainEnd descs k a) = (a :: l).getLast? := by
  induction l generalizing a k with
  | nil =>
    rw [Chained] at hl
    cases k with
    | zero => rfl
    | succ k => simp [Vring.chainEnd, hl]
  | cons b l ih =>
    obtain ⟨hnext, hb, hrest⟩ := hl
    cases k with
    | zero => cases hk
    | succ k =>
      rw [Vring.chainEnd, if_pos hnext, hb, ih hrest (Nat.le_of_succ_le_succ hk),
        List.getLast?_cons_cons]

theorem Chained.chainWalk (hl : Chained descs (a :: l)) (hk : l.length < k) :
    chainWalk descs k a = a :: l := by
  induction l generalizing a k with
  | nil =>
    rw [Chained] at hl
    cases k with
    | zero => cases hk
    | succ k => simp [Vring.chainWalk, hl]
  | cons b l ih =>
    obtain ⟨hnext, hb, hrest⟩ := hl
    cases k with
    | zero => cases hk
    | succ k => rw [Vring.chainWalk, if_pos hnext, hb, ih hrest (Nat.lt_of_succ_lt_succ hk)]

theorem Linked.freeWalk {freeLast : Option Nat} (hl : Linked descs (a :: l))
    (hlast : freeLast = (a :: l).getLast?) (hnodup : (a :: l).Nodup) (hk : l.length < k) :
    freeWalk descs freeLast k a = a :: l := by
  induction l generalizing a k with
  | nil =>
    cases k with
    | zero => cases hk
    | succ k =>
      have ha : some a = freeLast := hlast.symm
      rw [Vring.freeWalk, if_pos ha]
  | cons b l ih =>
    cases k with
    | zero => cases hk
    | succ k =>
      obtain ⟨hab, hrest⟩ := List.isChain_cons_cons.mp hl
      obtain ⟨hnotin, hnodup⟩ := List.nodup_cons.mp hnodup
      rw [List.getLast?_cons_cons] at hlast
      have hne : some a ≠ freeLast := by
        rw [hlast]
        intro h
        exact hnotin (List.mem_of_getLast? h.symm)
      rw [Vring.freeWalk, if_neg hne, hab, ih hrest hlast hnodup (Nat.lt_of_succ_lt_succ hk)]

/-! ## The free list -/

/-- The free descriptors, in the order they are taken. -/
structure Free (r : Vring) (l : List Nat) : Prop where
  head : r.freeHead = l.head?
  last : r.freeLast = l.getLast?
  linked : Linked r.descs l
  nodup : l.Nodup
  small : ∀ a ∈ l, a < 2 ^ 16

theorem Free.congr {r' : Vring} (hf : Free r l) (hhead : r'.freeHead = r.freeHead)
    (hlast : r'.freeLast = r.freeLast) (heq : ∀ a ∈ l, r'.descs a = r.descs a) : Free r' l := by
  refine ⟨?_, ?_, hf.linked.congr heq, hf.nodup, hf.small⟩
  · rw [hhead]
    exact hf.head
  · rw [hlast]
    exact hf.last

theorem allocateDesc_ok (hf : Free r (a :: l)) :
    r.allocateDesc = .ok (a, { r with freeHead := l.head?, freeLast := l.getLast? }) := by
  have hhead := hf.head
  have hlast := hf.last
  rw [List.head?_cons] at hhead
  cases l with
  | nil =>
    have heq : some a = r.freeLast := hlast.symm
    simp only [allocateDesc, hhead, if_pos heq]
    rfl
  | cons b l =>
    rw [List.getLast?_cons_cons] at hlast
    have hne : some a ≠ r.freeLast := by
      rw [hlast]
      intro h
      exact (List.nodup_cons.mp hf.nodup).1 (List.mem_of_getLast? h.symm)
    have hb := (List.isChain_cons_cons.mp hf.linked).1
    simp only [allocateDesc, hhead, if_neg hne, hb, List.head?_cons, ← hlast]

theorem Free.tail (hf : Free r (a :: l)) :
    Free { r with freeHead := l.head?, freeLast := l.getLast? } l :=
  ⟨rfl, rfl, hf.linked.tail, (List.nodup_cons.mp hf.nodup).2,
    fun b hb => hf.small b (List.mem_cons_of_mem _ hb)⟩

/-- The buffers are linked, behind the descriptor `prev` if there is one, in descriptors from the
front of the free list. -/
theorem link_ok {bs : List Buffer} (prev : Option Nat) (head : UInt16) (hf : Free r l)
    (hn : bs.length ≤ l.length) (hprev : ∀ p ∈ prev, p ∉ l ∧ (r.descs p).hasNext = false) :
    ∃ descs, link bs prev head r = .ok
        (if prev = none then UInt16.ofNat ((l.take bs.length).headD head.toNat) else head,
          { r with
            descs
            freeHead := (l.drop bs.length).head?
            freeLast := (l.drop bs.length).getLast? }) ∧
      (∀ d, d ∉ prev.toList ++ l.take bs.length → descs d = r.descs d) ∧
      Chained descs (prev.toList ++ l.take bs.length) := by
  induction bs generalizing prev head r l with
  | nil =>
    refine ⟨r.descs, ?_, fun d _ => rfl, ?_⟩
    · rw [link, List.length_nil, List.drop_zero, ← hf.head, ← hf.last]
      simp
    · cases prev with
      | none => trivial
      | some p => exact (hprev p rfl).2
  | cons b bs ih =>
    cases l with
    | nil => cases hn
    | cons a l =>
      have hmem := List.nodup_cons.mp hf.nodup
      have ha : (UInt16.ofNat a).toNat = a := by
        rw [UInt16.toNat_ofNat', Nat.mod_eq_of_lt (hf.small a List.mem_cons_self)]
      rw [List.length_cons, List.length_cons] at hn
      have hn := Nat.le_of_succ_le_succ hn
      cases prev with
      | none =>
        obtain ⟨descs, hrun, hsame, hch⟩ := ih (some a) (UInt16.ofNat a)
          (r := { r with freeHead := l.head?, freeLast := l.getLast? }.setDesc a
            { r.descs a with paddr := b.addr, len := b.len, hasNext := false, writeable := b.writeable })
          (hf.tail.congr rfl rfl fun d hd => Function.update_of_ne (ne_of_mem_of_not_mem hd hmem.1) ..)
          hn (by
            rintro p ⟨⟩
            exact ⟨hmem.1, by simp [setDesc]⟩)
        refine ⟨descs, ?_, ?_, hch⟩
        · simp only [link, allocateDesc_ok hf, ok_bind]
          exact hrun
        · intro d hd
          rw [hsame d hd]
          apply Function.update_of_ne
          rintro rfl
          exact hd List.mem_cons_self
      | some p =>
        obtain ⟨hp, -⟩ := hprev p rfl
        obtain ⟨hpa, hpl⟩ : p ≠ a ∧ p ∉ l := by simpa using hp
        obtain ⟨descs, hrun, hsame, hch⟩ := ih (some a) head
          (r := ({ r with freeHead := l.head?, freeLast := l.getLast? }.setDesc p
            { r.descs p with hasNext := true, next := UInt16.ofNat a }).setDesc a
            { r.descs a with paddr := b.addr, len := b.len, hasNext := false, writeable := b.writeable })
          (hf.tail.congr rfl rfl fun d hd =>
            (Function.update_of_ne (ne_of_mem_of_not_mem hd hmem.1) ..).trans
              (Function.update_of_ne (ne_of_mem_of_not_mem hd hpl) ..))
          hn (by
            rintro p ⟨⟩
            exact ⟨hmem.1, by simp [setDesc]⟩)
        have hdescs : descs p = { r.descs p with hasNext := true, next := UInt16.ofNat a } := by
          rw [hsame p]
          · exact (Function.update_of_ne hpa ..).trans (Function.update_self ..)
          · intro h
            exact (List.mem_cons.mp h).elim hpa fun h => hpl (List.mem_of_mem_take h)
        refine ⟨descs, ?_, ?_, ?_, ?_, hch⟩
        · have hset : (({ r with freeHead := l.head?, freeLast := l.getLast? } : Vring).setDesc p
              { r.descs p with hasNext := true, next := UInt16.ofNat a }).descs a = r.descs a :=
            Function.update_of_ne (Ne.symm hpa) ..
          simp only [link, allocateDesc_ok hf, ok_bind, hset]
          exact hrun
        · intro d hd
          have hd : d ≠ p ∧ d ∉ (some a).toList ++ l.take bs.length := by simpa using hd
          have hda : d ≠ a := by
            rintro rfl
            exact hd.2 List.mem_cons_self
          rw [hsame d hd.2]
          exact (Function.update_of_ne hda ..).trans (Function.update_of_ne hd.1 ..)
        · rw [hdescs]
        · rw [hdescs]
          exact ha

/-- The free list gets a chain. -/
theorem free_ok {h : Nat} {ds : List Nat} (hhead : r.freeHead = l.head?)
    (hlast : r.freeLast = l.getLast?) (hch : Chained r.descs (h :: ds)) (hlen : ds.length ≤ r.size)
    (hd : ∀ a ∈ h :: ds, a ∉ l) (hsmall : h < 2 ^ 16) :
    ∃ descs, r.free h = { r with
        descs
        freeHead := (l ++ h :: ds).head?
        freeLast := (l ++ h :: ds).getLast? } ∧
      (∀ a, some a ≠ l.getLast? → descs a = r.descs a) ∧
      ∀ a ∈ l.getLast?, (descs a).next.toNat = h := by
  rw [List.getLast?_append_of_ne_nil _ (List.cons_ne_nil h ds)]
  cases hl : l.getLast? with
  | none =>
    obtain rfl := List.getLast?_eq_none_iff.mp hl
    have hend := Chained.chainEnd hch hlen
    rw [hl] at hlast
    refine ⟨r.descs, ?_, fun a _ => rfl, fun a ha => by cases ha⟩
    rw [← hend, free, hlast]
    rfl
  | some last =>
    have hmem := List.mem_of_getLast? hl
    have hch' : Chained (Function.update r.descs last { r.descs last with next := UInt16.ofNat h })
        (h :: ds) := by
      apply hch.congr
      intro a ha
      apply Function.update_of_ne
      rintro rfl
      exact hd a ha hmem
    have hend := Chained.chainEnd hch' hlen
    have hhead' : (l ++ h :: ds).head? = r.freeHead := by
      cases l with
      | nil => cases hl
      | cons a l => exact hhead.symm
    rw [hl] at hlast
    refine ⟨Function.update r.descs last { r.descs last with next := UInt16.ofNat h }, ?_, ?_, ?_⟩
    · rw [← hend, hhead', free, hlast]
      rfl
    · intro a ha
      exact Function.update_of_ne (fun h => ha (by rw [h])) ..
    · rintro a ⟨⟩
      rw [Function.update_self]
      simp only [UInt16.toNat_ofNat']
      exact Nat.mod_eq_of_lt hsmall

/-! ## Free descriptors and chains -/

/-- The descriptors of the chains. -/
def descsOf (chains : List (Chain × List Nat)) : List Nat := chains.flatMap Prod.snd

/-- Each descriptor is free or in one of the chains, which are stored under their heads. -/
structure Rep (r : Vring) (l : List Nat) (chains : List (Chain × List Nat)) : Prop where
  list : Free r l
  perm : (l ++ descsOf chains).Perm (List.range r.size)
  chained : ∀ c ∈ chains, Chained r.descs c.2
  stored : ∀ c ∈ chains, ∃ h ∈ c.2.head?, r.bufferChains h = some c.1
  only : ∀ h bc, r.bufferChains h = some bc → ∃ c ∈ chains, c.1 = bc ∧ c.2.head? = some h
  lengths : ∀ c ∈ chains, c.1.buffers.length = c.2.length

namespace Rep

variable {chains chains' : List (Chain × List Nat)} {c : Chain × List Nat}

theorem size_lt (r : Vring) : r.size < 2 ^ 16 :=
  Nat.lt_of_le_of_lt (Nat.pow_le_pow_right (by decide) r.config.log_le) (by decide)

theorem nodup (hrep : Rep r l chains) : (l ++ descsOf chains).Nodup :=
  hrep.perm.nodup_iff.mpr List.nodup_range

theorem lt_size (hrep : Rep r l chains) (hn : n ∈ l ++ descsOf chains) : n < r.size :=
  List.mem_range.mp (hrep.perm.mem_iff.mp hn)

theorem mem_descsOf (hc : c ∈ chains) (hn : n ∈ c.2) : n ∈ descsOf chains :=
  List.mem_flatMap.mpr ⟨c, hc, hn⟩

theorem count (hrep : Rep r l chains) : l.length + (descsOf chains).length = r.size := by
  have hlen := hrep.perm.length_eq
  rw [List.length_append, List.length_range] at hlen
  exact hlen

/-- The order of the chains does not matter. -/
theorem reorder (hrep : Rep r l chains) (hp : chains.Perm chains') : Rep r l chains' := by
  refine ⟨hrep.list, ?_, ?_, ?_, ?_, ?_⟩
  · exact ((hp.flatMap_right _).symm.append_left l).trans hrep.perm
  · exact fun c hc => hrep.chained c (hp.mem_iff.mpr hc)
  · exact fun c hc => hrep.stored c (hp.mem_iff.mpr hc)
  · intro h bc hbc
    obtain ⟨c, hc, hcs⟩ := hrep.only h bc hbc
    exact ⟨c, hp.mem_iff.mp hc, hcs⟩
  · exact fun c hc => hrep.lengths c (hp.mem_iff.mpr hc)

/-- Each chain has a descriptor. -/
theorem chains_le (hrep : Rep r l chains) : l.length + chains.length ≤ r.size := by
  have hle : ∀ cs : List (Chain × List Nat), (∀ c ∈ cs, c.2 ≠ []) → cs.length ≤ (descsOf cs).length := by
    intro cs hcs
    induction cs with
    | nil => exact Nat.le_refl _
    | cons c cs ih =>
      have hpos := List.length_pos_iff.mpr (hcs c List.mem_cons_self)
      have hrest := ih fun d hd => hcs d (List.mem_cons_of_mem _ hd)
      rw [descsOf, List.flatMap_cons, List.length_append, List.length_cons]
      rw [descsOf] at hrest
      omega
  have hlen := hle chains (by
    intro c hc hnil
    obtain ⟨h, hh, -⟩ := hrep.stored c hc
    rw [hnil] at hh
    cases hh)
  have hcount := hrep.count
  omega

theorem setup (config : RingSize) : Rep (Vring.setup config) (List.range (2 ^ config.log)) [] := by
  have hsize : 2 ^ config.log < 2 ^ 16 := size_lt (Vring.setup config)
  have hpos : 0 < 2 ^ config.log := Nat.two_pow_pos _
  refine ⟨⟨?_, ?_, ?_, List.nodup_range, ?_⟩, ?_, ?_, ?_, ?_, ?_⟩
  · rw [List.head?_range, if_neg (Nat.ne_of_gt hpos)]
    rfl
  · rw [List.getLast?_range, if_neg (Nat.ne_of_gt hpos)]
    rfl
  · rw [Linked, List.isChain_iff_getElem]
    intro i hi
    rw [List.length_range] at hi
    have hlt : i < 2 ^ config.log := by omega
    rw [List.getElem_range, List.getElem_range]
    simp only [Vring.setup, if_pos hlt, UInt16.toNat_ofNat']
    omega
  · intro a ha
    exact Nat.lt_trans (List.mem_range.mp ha) hsize
  · rw [descsOf, List.flatMap_nil, List.append_nil]
    exact List.Perm.refl _
  · exact fun c hc => by cases hc
  · exact fun c hc => by cases hc
  · exact fun h bc hbc => by cases hbc
  · exact fun c hc => by cases hc

/-- A chain is posted: its descriptors come from the front of the free list. -/
theorem postChain {bs : List Buffer} (hrep : Rep r l chains) (hbs : bs ≠ [])
    (hn : bs.length ≤ l.length) :
    ∃ h descs, (l.take bs.length).head? = some h ∧ (UInt16.ofNat h).toNat = h ∧
      r.postChain bs = .ok { r with
        descs
        freeHead := (l.drop bs.length).head?
        freeLast := (l.drop bs.length).getLast?
        bufferChains := Function.update r.bufferChains h (some ⟨r.posted, bs⟩)
        availRing := Function.update r.availRing (r.masked r.head) (UInt16.ofNat h)
        head := r.head + 1
        posted := r.posted + 1 } ∧
      Rep { r with
        descs
        freeHead := (l.drop bs.length).head?
        freeLast := (l.drop bs.length).getLast?
        bufferChains := Function.update r.bufferChains h (some ⟨r.posted, bs⟩)
        availRing := Function.update r.availRing (r.masked r.head) (UInt16.ofNat h)
        head := r.head + 1
        posted := r.posted + 1 } (l.drop bs.length)
        ((⟨r.posted, bs⟩, l.take bs.length) :: chains) := by
  obtain ⟨descs, hrun, hsame, hch⟩ := link_ok none 0 hrep.list hn nofun
  have htake := List.take_append_drop bs.length l
  have hnodup := hrep.nodup
  rw [← htake, List.append_assoc, List.nodup_append] at hnodup
  obtain ⟨h, hh⟩ : ∃ h, (l.take bs.length).head? = some h := by
    rw [← Option.isSome_iff_exists, List.isSome_head?]
    intro hnil
    have hlen := congrArg List.length hnil
    rw [List.length_take, List.length_nil] at hlen
    have hpos := List.length_pos_iff.mpr hbs
    omega
  have hmem : h ∈ l.take bs.length := List.mem_of_head? hh
  have hsmall := hrep.list.small h (List.mem_of_mem_take hmem)
  have hnat : (UInt16.ofNat h).toNat = h := by
    rw [UInt16.toNat_ofNat', Nat.mod_eq_of_lt hsmall]
  have hd : (l.take bs.length).headD 0 = h := by
    rw [List.headD_eq_head?_getD, hh, Option.getD_some]
  have hother : ∀ a, a ∈ l.drop bs.length ++ descsOf chains → descs a = r.descs a := by
    intro a ha
    apply hsame
    intro ha'
    exact hnodup.2.2 a ha' a ha rfl
  refine ⟨h, descs, hh, hnat, ?_, ?_⟩
  · have h0 : (0 : UInt16).toNat = 0 := rfl
    rw [if_pos rfl, h0, hd] at hrun
    rw [Vring.postChain, hrun, ok_bind]
    simp only [hnat]
    rfl
  · refine ⟨⟨rfl, rfl, ?_, ?_, ?_⟩, ?_, ?_, ?_, ?_, ?_⟩
    · have hlinked : Linked r.descs (l.drop bs.length) := hrep.list.linked.drop _
      exact hlinked.congr fun a ha => hother a (List.mem_append_left _ ha)
    · exact hrep.list.nodup.sublist (List.drop_sublist ..)
    · exact fun a ha => hrep.list.small a (List.mem_of_mem_drop ha)
    · have hperm := hrep.perm
      rw [← htake, List.append_assoc] at hperm
      rw [descsOf, List.flatMap_cons]
      refine List.Perm.trans ?_ hperm
      rw [← List.append_assoc, ← List.append_assoc]
      exact List.perm_append_comm.append_right _
    · intro c hc
      rcases List.mem_cons.mp hc with rfl | hc
      · exact hch
      · exact (hrep.chained c hc).congr fun a ha =>
          hother a (List.mem_append_right _ (mem_descsOf hc ha))
    · intro c hc
      rcases List.mem_cons.mp hc with rfl | hc
      · exact ⟨h, hh, Function.update_self ..⟩
      · obtain ⟨k, hk, hck⟩ := hrep.stored c hc
        refine ⟨k, hk, (Function.update_of_ne ?_ ..).trans hck⟩
        rintro rfl
        exact hnodup.2.2 k hmem k
          (List.mem_append_right _ (mem_descsOf hc (List.mem_of_head? hk))) rfl
    · intro k bc hbc
      by_cases hk : k = h
      · subst hk
        have hself : Function.update r.bufferChains k (some ⟨r.posted, bs⟩) k =
          some ⟨r.posted, bs⟩ := Function.update_self ..
        obtain rfl := Option.some.inj (hself.symm.trans hbc)
        exact ⟨_, List.mem_cons_self, rfl, hh⟩
      · obtain ⟨c, hc, hcs⟩ := hrep.only k bc ((Function.update_of_ne hk ..).symm.trans hbc)
        exact ⟨c, List.mem_cons_of_mem _ hc, hcs⟩
    · intro c hc
      rcases List.mem_cons.mp hc with rfl | hc
      · show bs.length = (l.take bs.length).length
        rw [List.length_take]
        omega
      · exact hrep.lengths c hc

/-- A completed chain goes to the end of the free list. -/
theorem complete {bc : Chain} {ds : List Nat} {h : Nat} (hrep : Rep r l ((bc, ds) :: chains))
    (hh : ds.head? = some h) :
    Rep ({ r with bufferChains := Function.update r.bufferChains h none }.free h) (l ++ ds) chains := by
  obtain ⟨ds', rfl⟩ : ∃ ds', ds = h :: ds' := by
    cases ds with
    | nil => cases hh
    | cons a ds =>
      obtain rfl := Option.some.inj hh
      exact ⟨ds, rfl⟩
  have hnodup := hrep.nodup
  rw [descsOf, List.flatMap_cons, ← List.append_assoc] at hnodup
  have hparts := List.nodup_append.mp hnodup
  have hlds := List.nodup_append.mp hparts.1
  have hmem : ∀ a ∈ h :: ds', a ∈ l ++ descsOf ((bc, h :: ds') :: chains) := fun a ha =>
    List.mem_append_right _ (mem_descsOf List.mem_cons_self ha)
  have hsmall : ∀ a ∈ h :: ds', a < 2 ^ 16 := fun a ha =>
    Nat.lt_trans (hrep.lt_size (hmem a ha)) (size_lt r)
  have hlen : ds'.length ≤ r.size := by
    have hcount := hrep.count
    rw [descsOf, List.flatMap_cons, List.length_append, List.length_cons] at hcount
    omega
  -- the descriptors but the last free one stay as they are, and that is linked to the chain
  obtain ⟨descs, hfree, hdescs, hlast⟩ := free_ok (l := l)
    (r := { r with bufferChains := Function.update r.bufferChains h none }) hrep.list.head
    hrep.list.last (hrep.chained _ List.mem_cons_self) hlen
    (fun a ha hal => hlds.2.2 a hal a ha rfl) (hsmall h List.mem_cons_self)
  have hsame : ∀ a ∈ (h :: ds') ++ descsOf chains, descs a = r.descs a := by
    intro a ha
    apply hdescs
    intro hal
    have hal := List.mem_of_getLast? hal.symm
    rcases List.mem_append.mp ha with ha | ha
    · exact hlds.2.2 a hal a ha rfl
    · exact hparts.2.2 a (List.mem_append_left _ hal) a ha rfl
  have hlinked : Linked descs (l ++ h :: ds') := by
    refine List.isChain_append.mpr ⟨?_, ?_, ?_⟩
    · rcases List.eq_nil_or_concat' l with rfl | ⟨l₀, last, rfl⟩
      · exact .nil
      · have hl := List.isChain_append.mp hrep.list.linked
        have hnotin : ∀ a ∈ l₀, a ≠ last := fun a ha =>
          (List.nodup_append.mp hrep.list.nodup).2.2 a ha last (List.mem_singleton_self _)
        have hdescs' : ∀ a ∈ l₀, descs a = r.descs a := by
          intro a ha
          apply hdescs
          rw [List.getLast?_concat]
          exact fun h => hnotin a ha (Option.some.inj h)
        refine List.isChain_append.mpr ⟨Linked.congr hl.1 hdescs', .singleton _, ?_⟩
        intro a ha b hb
        rw [hdescs' a (List.mem_of_getLast? ha)]
        exact hl.2.2 a ha b hb
    · exact (hrep.chained _ List.mem_cons_self).linked.congr fun a ha =>
        hsame a (List.mem_append_left _ ha)
    · rintro a ha b ⟨⟩
      exact hlast a ha
  rw [hfree]
  refine ⟨⟨rfl, rfl, hlinked, hparts.1, ?_⟩, ?_, ?_, ?_, ?_, ?_⟩
  · intro a ha
    rcases List.mem_append.mp ha with ha | ha
    · exact hrep.list.small a ha
    · exact hsmall a ha
  · have hperm := hrep.perm
    rw [descsOf, List.flatMap_cons, ← List.append_assoc] at hperm
    exact hperm
  · intro c hc
    exact (hrep.chained c (List.mem_cons_of_mem _ hc)).congr fun a ha =>
      hsame a (List.mem_append_right _ (mem_descsOf hc ha))
  · intro c hc
    obtain ⟨k, hk, hck⟩ := hrep.stored c (List.mem_cons_of_mem _ hc)
    refine ⟨k, hk, (Function.update_of_ne ?_ ..).trans hck⟩
    rintro rfl
    exact hparts.2.2 k (List.mem_append_right _ List.mem_cons_self) k
      (mem_descsOf hc (List.mem_of_head? hk)) rfl
  · intro k bc' hbc
    by_cases hk : k = h
    · subst hk
      have hself : Function.update r.bufferChains k none k = none := Function.update_self ..
      cases hself.symm.trans hbc
    · obtain ⟨c, hc, hcbc, hck⟩ := hrep.only k bc' ((Function.update_of_ne hk ..).symm.trans hbc)
      rcases List.mem_cons.mp hc with rfl | hc
      · exact absurd (Option.some.inj hck).symm hk
      · exact ⟨c, hc, hcbc, hck⟩
  · exact fun c hc => hrep.lengths c (List.mem_cons_of_mem _ hc)

/-! What the descriptors say themselves. -/

theorem freeList_eq (hrep : Rep r l chains) : r.freeList = l := by
  have hhead := hrep.list.head
  cases l with
  | nil =>
    rw [freeList, hhead]
    rfl
  | cons a l =>
    have hcount := hrep.count
    rw [List.length_cons] at hcount
    rw [freeList, hhead]
    exact hrep.list.linked.freeWalk hrep.list.last hrep.list.nodup (by omega)

theorem stored_cons (hrep : Rep r l chains) (hc : c ∈ chains) :
    ∃ h ds, c.2 = h :: ds ∧ r.bufferChains h = some c.1 := by
  obtain ⟨h, hh, hbc⟩ := hrep.stored c hc
  cases hc2 : c.2 with
  | nil =>
    rw [hc2] at hh
    cases hh
  | cons a ds =>
    rw [hc2] at hh
    obtain rfl := Option.some.inj hh
    exact ⟨a, ds, rfl, hbc⟩

theorem mem_heads (hrep : Rep r l chains) :
    n ∈ r.heads ↔ n ∈ chains.map fun c => c.2.headD 0 := by
  rw [heads, List.mem_filter, List.mem_map]
  constructor
  · rintro ⟨-, hsome⟩
    obtain ⟨bc, hbc⟩ := Option.isSome_iff_exists.mp hsome
    obtain ⟨c, hc, -, hh⟩ := hrep.only n bc hbc
    exact ⟨c, hc, by rw [List.headD_eq_head?_getD, hh, Option.getD_some]⟩
  · rintro ⟨c, hc, rfl⟩
    obtain ⟨h, ds, hc2, hbc⟩ := hrep.stored_cons hc
    have hmem : h ∈ descsOf chains := mem_descsOf hc (by rw [hc2]; exact List.mem_cons_self)
    rw [hc2, List.headD_cons, hbc]
    exact ⟨List.mem_range.mpr (hrep.lt_size (List.mem_append_right _ hmem)), rfl⟩

theorem heads_perm (hrep : Rep r l chains) :
    r.heads.Perm (chains.map fun c => c.2.headD 0) := by
  have hdisj := (List.nodup_flatMap.mp (List.nodup_append.mp hrep.nodup).2.1).2
  refine (List.perm_ext_iff_of_nodup ?_ ?_).mpr fun n => hrep.mem_heads
  · exact List.nodup_range.filter _
  · refine List.pairwise_map.mpr (hdisj.imp_of_mem ?_)
    intro c d hc hd hdisj heq
    obtain ⟨h, ds, hc2, -⟩ := hrep.stored_cons hc
    obtain ⟨k, es, hd2, -⟩ := hrep.stored_cons hd
    rw [hc2, hd2, List.headD_cons, List.headD_cons] at heq
    apply hdisj (a := h)
    · rw [hc2]
      exact List.mem_cons_self
    · rw [hd2, heq]
      exact List.mem_cons_self

/-- Each descriptor is once in the free list or in an outstanding chain. -/
theorem outstanding_perm (hrep : Rep r l chains) :
    (r.freeList ++ r.outstanding).Perm (List.range r.size) := by
  have hwalk : (chains.map fun c => c.2.headD 0).flatMap (chainWalk r.descs r.size) =
      descsOf chains := by
    rw [List.flatMap_map, descsOf]
    apply List.flatMap_congr
    intro c hc
    obtain ⟨h, ds, hc2, -⟩ := hrep.stored_cons hc
    have hch := hrep.chained c hc
    have hlen : c.2.length ≤ (descsOf chains).length :=
      (List.sublist_flatten_of_mem (List.mem_map_of_mem hc)).length_le
    have hcount := hrep.count
    rw [hc2] at hch hlen ⊢
    rw [List.length_cons] at hlen
    exact hch.chainWalk (by omega)
  rw [hrep.freeList_eq]
  refine List.Perm.trans (List.Perm.append_left l ?_) hrep.perm
  rw [outstanding, ← hwalk]
  exact hrep.heads_perm.flatMap_right _

end Rep

end Vring

end Seastar.Net.Virtio
