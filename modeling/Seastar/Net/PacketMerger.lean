import Seastar.Lib.Segments
import Seastar.Net.Packet

/-!
`packet_merger` of `net/packet-util.hh`: a map from offsets to packets into which
received packets are merged, in any order and with any overlap.

The offset type is a template parameter of the source. Here it is a type with
the four operations the code uses. `OffsetWindow` says that on a range of stream
positions they agree with the natural numbers; it holds of plain `uint32_t`
offsets that do not wrap, and of TCP sequence numbers spanning less than 2³¹.

The abstract state of a merger is a set of stream positions (`Lib.Segment.Covered`)
and its normal form, a separated list of segments. `merge_spec` is the refinement:
one call adds exactly the positions of the packet.
-/

namespace Seastar.Net

open Lib Lib.Segment

/-- What `packet_merger` asks of its `Offset` parameter: `offset + len`, the
difference of two offsets as the `size_t` handed to `trim_front`, `<` and `<=`. -/
class MergeOffset (O : Type) where
  add : O → Nat → O
  sub : O → O → Nat
  lt : O → O → Bool
  le : O → O → Bool

/-- On positions `lo` to `hi` the offsets `rep` behave like the positions. -/
structure OffsetWindow {O : Type} [MergeOffset O] (rep : Nat → O) (lo hi : Nat) : Prop where
  add : ∀ a n, lo ≤ a → a + n ≤ hi → MergeOffset.add (rep a) n = rep (a + n)
  sub : ∀ a b, lo ≤ a → a ≤ b → b ≤ hi → MergeOffset.sub (rep b) (rep a) = b - a
  lt : ∀ a b, lo ≤ a → a ≤ hi → lo ≤ b → b ≤ hi → MergeOffset.lt (rep a) (rep b) = decide (a < b)
  le : ∀ a b, lo ≤ a → a ≤ hi → lo ≤ b → b ≤ hi → MergeOffset.le (rep a) (rep b) = decide (a ≤ b)

instance : MergeOffset UInt32 where
  add a n := a + UInt32.ofNat n
  sub a b := (a - b).toNat
  lt a b := decide (a < b)
  le a b := decide (a ≤ b)

/-- `uint32_t` offsets that do not wrap. -/
theorem OffsetWindow.uint32 : OffsetWindow UInt32.ofNat 0 (2 ^ 32 - 1) where
  add a n _ _ := (UInt32.ofNat_add a n).symm
  sub a b _ hab hb := by
    have ha : (UInt32.ofNat a).toNat = a := UInt32.toNat_ofNat_of_lt' (by simp [UInt32.size]; omega)
    have hb' : (UInt32.ofNat b).toNat = b := UInt32.toNat_ofNat_of_lt' (by simp [UInt32.size]; omega)
    show (UInt32.ofNat b - UInt32.ofNat a).toNat = b - a
    rw [UInt32.toNat_sub_of_le _ _ (UInt32.le_iff_toNat_le.mpr (by omega)), ha, hb']
  lt a b _ ha _ hb := by
    have ha : (UInt32.ofNat a).toNat = a := UInt32.toNat_ofNat_of_lt' (by simp [UInt32.size]; omega)
    have hb' : (UInt32.ofNat b).toNat = b := UInt32.toNat_ofNat_of_lt' (by simp [UInt32.size]; omega)
    show decide (UInt32.ofNat a < UInt32.ofNat b) = decide (a < b)
    rw [decide_eq_decide, UInt32.lt_iff_toNat_lt, ha, hb']
  le a b _ ha _ hb := by
    have ha : (UInt32.ofNat a).toNat = a := UInt32.toNat_ofNat_of_lt' (by simp [UInt32.size]; omega)
    have hb' : (UInt32.ofNat b).toNat = b := UInt32.toNat_ofNat_of_lt' (by simp [UInt32.size]; omega)
    show decide (UInt32.ofNat a ≤ UInt32.ofNat b) = decide (a ≤ b)
    rw [decide_eq_decide, UInt32.le_iff_toNat_le, ha, hb']

/-- A window holds on every part of it. -/
theorem OffsetWindow.mono {O : Type} [MergeOffset O] {rep : Nat → O} {lo hi lo' hi' : Nat}
    (hw : OffsetWindow rep lo hi) (hlo : lo ≤ lo') (hhi : hi' ≤ hi) : OffsetWindow rep lo' hi' where
  add a n h₁ h₂ := hw.add a n (by omega) (by omega)
  sub a b h₁ h₂ h₃ := hw.sub a b (by omega) h₂ (by omega)
  lt a b h₁ h₂ h₃ h₄ := hw.lt a b (by omega) (by omega) (by omega) (by omega)
  le a b h₁ h₂ h₃ h₄ := hw.le a b (by omega) (by omega) (by omega) (by omega)

namespace PacketMerger

open MergeOffset

section Code

variable {O : Type} [MergeOffset O]

/-- How the first loop of `merge` ends. -/
inductive FirstPass (O : Type)
  /-- case 1: the data is there already, `merge` returns -/
  | done
  /-- `insert` is true: the packet to emplace and the map it goes into -/
  | insert (map : List (O × Packet)) (p : Packet)
  /-- case 4, `insert` is false: the packet was appended to an old segment -/
  | appended (map : List (O × Packet))

/-- Put a segment the first loop has passed over back in front. -/
def FirstPass.cons (s : O × Packet) : FirstPass O → FirstPass O
  | .done => .done
  | .insert map p => .insert (s :: map) p
  | .appended map => .appended (s :: map)

/-- The first loop: try to merge the packet with an existing segment. -/
def firstPass (beg : O) (p : Packet) : List (O × Packet) → Except Fault (FirstPass O)
  | [] => .ok (.insert [] p)
  | (segBeg, segPkt) :: map =>
    let e := add beg p.len
    let segEnd := add segBeg segPkt.len
    -- 1) seg_beg beg end seg_end
    if le segBeg beg && le e segEnd then .ok .done
    -- 2) beg seg_beg seg_end end
    else if le beg segBeg && le segEnd e then .ok (.insert map p)
    -- 3) beg seg_beg end seg_end
    else if lt beg segBeg && le segBeg e && le e segEnd then
      (segPkt.trimFront (sub e segBeg)).map fun q => .insert map (p.append q)
    -- 4) seg_beg beg seg_end end
    else if le segBeg beg && le beg segEnd && lt segEnd e then
      (p.trimFront (sub segEnd beg)).map fun q =>
        .appended ((segBeg, (segPkt.append q).linearize) :: map)
    -- 5) and 6): no common point, keep looking
    else (firstPass beg p map).map (.cons (segBeg, segPkt))

/-- `std::map::emplace`: nothing happens when the key is taken. -/
def emplace (k : O) (p : Packet) : List (O × Packet) → List (O × Packet)
  | [] => [(k, p)]
  | (k', p') :: map =>
    if lt k' k then (k', p') :: emplace k p map
    else if lt k k' then (k, p) :: (k', p') :: map
    else (k', p') :: map

/-- The second loop: merge adjacent segments. -/
def secondPass (segBeg : O) (segPkt : Packet) :
    List (O × Packet) → Except Fault (List (O × Packet))
  | [] => .ok [(segBeg, segPkt)]
  | (beg, p) :: map =>
    let segEnd := add segBeg segPkt.len
    let e := add beg p.len
    if le segBeg beg && le beg segEnd && lt segEnd e then do
      let q ← p.trimFront (sub segEnd beg)
      secondPass segBeg (segPkt.append q) map
    else if le e segEnd then secondPass segBeg segPkt map
    else if lt segEnd beg then (secondPass beg p map).map ((segBeg, segPkt) :: ·)
    else .error .aborted

/-- The second loop from `map.begin()`. -/
def mergeAdjacent : List (O × Packet) → Except Fault (List (O × Packet))
  | [] => .ok []
  | (segBeg, segPkt) :: map => secondPass segBeg segPkt map

/-- `packet_merger::merge`. -/
def merge (offset : O) (p : Packet) (map : List (O × Packet)) :
    Except Fault (List (O × Packet)) := do
  match ← firstPass offset p map with
  | .done => .ok map
  | .insert map p => mergeAdjacent (emplace offset p.linearize map)
  | .appended map => mergeAdjacent map

end Code

/-- A merge can only fail by a trim or in the branch that aborts. -/
theorem merge_error {O : Type} [MergeOffset O] {offset : O} {p : Packet} {map : List (O × Packet)}
    {f : Fault} (h : merge offset p map = .error f) : f = .trimTooLong ∨ f = .aborted := by
  have htrim : ∀ {q : Packet} {n : Nat} {β : Type} {g : Packet → β},
      (q.trimFront n).map g = .error f → f = .trimTooLong := by
    intro q n β g h
    cases hq : q.trimFront n with
    | ok r => rw [hq] at h; cases h
    | error e =>
      rw [hq] at h
      rw [← (Packet.trimFront_error hq).1]
      exact (Except.error.inj h).symm
  have hfirst : ∀ {map : List (O × Packet)}, firstPass offset p map = .error f →
      f = .trimTooLong := by
    intro map
    induction map with
    | nil => nofun
    | cons e map ih =>
      intro h
      simp only [firstPass] at h
      split at h
      · cases h
      split at h
      · cases h
      split at h
      · exact htrim h
      split at h
      · exact htrim h
      · cases hm : firstPass offset p map with
        | ok r => rw [hm] at h; cases h
        | error e =>
          rw [hm] at h
          exact ih (hm.trans (congrArg Except.error (Except.error.inj h)))
  have hsecond : ∀ {map : List (O × Packet)} {k : O} {q : Packet},
      secondPass k q map = .error f → f = .trimTooLong ∨ f = .aborted := by
    intro map
    induction map with
    | nil => nofun
    | cons e map ih =>
      intro k q h
      simp only [secondPass] at h
      split at h
      · rcases bind_error.mp h with h | ⟨r, -, h⟩
        · exact Or.inl ((Packet.trimFront_error h).1)
        · exact ih h
      split at h
      · exact ih h
      split at h
      · cases hm : secondPass e.1 e.2 map with
        | ok r => rw [hm] at h; cases h
        | error e =>
          rw [hm] at h
          exact ih (hm.trans (congrArg Except.error (Except.error.inj h)))
      · exact Or.inr (Except.error.inj h).symm
  have hadjacent : ∀ {map : List (O × Packet)}, mergeAdjacent map = .error f →
      f = .trimTooLong ∨ f = .aborted := by
    intro map h
    cases map with
    | nil => cases h
    | cons e map => exact hsecond h
  rcases bind_error.mp h with h | ⟨r, -, h⟩
  · exact Or.inl (hfirst h)
  · cases r with
    | done => cases h
    | insert map p => exact hadjacent h
    | appended map => exact hadjacent h

/-! ## Refinement -/

variable {O : Type} {rep : Nat → O} {lo hi : Nat} {S : Nat → Byte}

/-- A map entry stands for a segment of the stream. -/
def Entry (rep : Nat → O) (e : O × Packet) (s : Segment Byte) : Prop :=
  e.1 = rep s.beg ∧ e.2.bytes = s.data

theorem Entry.len {e : O × Packet} {s : Segment Byte} (h : Entry rep e s) :
    s.beg + e.2.len = s.stop := by
  rw [stop, ← h.2, Packet.length_bytes]

/-- The map stands for a list of segments inside the window, each holding its part
of the stream. -/
structure Reads (rep : Nat → O) (lo hi : Nat) (S : Nat → Byte) (map : List (O × Packet))
    (segs : List (Segment Byte)) : Prop where
  entries : List.Forall₂ (Entry rep) map segs
  inside : ∀ s ∈ segs, lo ≤ s.beg ∧ s.stop ≤ hi
  holds : ∀ s ∈ segs, s.Holds S

theorem Reads.nil : Reads rep lo hi S [] [] := ⟨.nil, by simp, by simp⟩

theorem reads_cons {e : O × Packet} {map : List (O × Packet)} {s : Segment Byte}
    {segs : List (Segment Byte)} :
    Reads rep lo hi S (e :: map) (s :: segs) ↔
      (Entry rep e s ∧ (lo ≤ s.beg ∧ s.stop ≤ hi) ∧ s.Holds S) ∧ Reads rep lo hi S map segs := by
  constructor
  · rintro ⟨h₁, h₂, h₃⟩
    obtain ⟨he, hm⟩ := List.forall₂_cons.mp h₁
    exact ⟨⟨he, h₂ s List.mem_cons_self, h₃ s List.mem_cons_self⟩, hm,
      fun t ht => h₂ t (List.mem_cons_of_mem _ ht), fun t ht => h₃ t (List.mem_cons_of_mem _ ht)⟩
  · rintro ⟨⟨he, hi, hs⟩, hm, h₂, h₃⟩
    refine ⟨.cons he hm, fun t ht => ?_, fun t ht => ?_⟩
    · rcases List.mem_cons.mp ht with rfl | ht
      · exact hi
      · exact h₂ t ht
    · rcases List.mem_cons.mp ht with rfl | ht
      · exact hs
      · exact h₃ t ht

/-- Every entry of the map stands for one of the segments. -/
theorem Reads.exists_entry {map : List (O × Packet)} {segs : List (Segment Byte)}
    (h : Reads rep lo hi S map segs) {e : O × Packet} (he : e ∈ map) :
    ∃ s ∈ segs, Entry rep e s := by
  obtain ⟨hlen, hget⟩ := List.forall₂_iff_get.mp h.entries
  obtain ⟨i, hi, rfl⟩ := List.mem_iff_getElem.mp he
  exact ⟨_, List.getElem_mem (hlen ▸ hi), hget i hi (hlen ▸ hi)⟩

/-- Cut the front of a later entry off and append it to an earlier one. -/
theorem trim_append {a b : O × Packet} {s t : Segment Byte} (ha : Entry rep a s)
    (hb : Entry rep b t) (hst : s.stop ≤ t.stop) :
    ∃ q, b.2.trimFront (s.stop - t.beg) = .ok q ∧ Entry rep (a.1, a.2.append q) (s.join t) := by
  have hl := hb.len
  obtain ⟨q, hq, hqb, -⟩ := Packet.trimFront_ok (p := b.2) (n := s.stop - t.beg) (by omega)
  exact ⟨q, hq, ha.1, by rw [Packet.bytes_append, ha.2, hqb, hb.2, join]⟩

variable [MergeOffset O]

/-- The second loop computes `sweep`. -/
theorem secondPass_spec (hw : OffsetWindow rep lo hi) {map : List (O × Packet)}
    {segs : List (Segment Byte)} {e : O × Packet} {s : Segment Byte}
    (h : Reads rep lo hi S (e :: map) (s :: segs)) (hs : Sorted (s :: segs)) :
    ∃ out, secondPass e.1 e.2 map = .ok out ∧ Reads rep lo hi S out (sweep s segs) := by
  induction segs generalizing map e s with
  | nil =>
    obtain ⟨-, hm⟩ := reads_cons.mp h
    cases hm.entries
    exact ⟨_, rfl, h⟩
  | cons t segs ih =>
    obtain ⟨⟨he, hin, hh⟩, hm⟩ := reads_cons.mp h
    rcases map with _ | ⟨f, map⟩
    · cases hm.entries
    obtain ⟨⟨hf, hin', hh'⟩, hm'⟩ := reads_cons.mp hm
    obtain ⟨hst, htl⟩ := List.pairwise_cons.mp hs
    have hlt := hst t List.mem_cons_self
    have hb₁ := s.beg_le_stop
    have hb₂ := t.beg_le_stop
    have hsl : ∀ u : Segment Byte, u.beg = s.beg → Sorted (u :: segs) := fun u hu =>
      List.pairwise_cons.mpr
        ⟨fun v hv => hu ▸ hst v (List.mem_cons_of_mem _ hv), htl.of_cons⟩
    have hse : add e.1 e.2.len = rep s.stop := by
      rw [he.1, hw.add _ _ hin.1 (by rw [he.len]; omega), he.len]
    have hte : add f.1 f.2.len = rep t.stop := by
      rw [hf.1, hw.add _ _ hin'.1 (by rw [hf.len]; omega), hf.len]
    simp only [secondPass, hse, hte]
    rw [he.1, hf.1, hw.le _ _ hin.1 (by omega) hin'.1 (by omega),
      hw.le _ _ hin'.1 (by omega) (by omega) hin.2, hw.lt _ _ (by omega) hin.2 (by omega) hin'.2,
      hw.le _ _ (by omega) hin'.2 (by omega) hin.2, hw.lt _ _ (by omega) hin.2 hin'.1 (by omega),
      sweep]
    simp only [Bool.and_eq_true, decide_eq_true_eq]
    by_cases hj : t.beg ≤ s.stop ∧ s.stop < t.stop
    · -- `t` reaches beyond `s`: it is trimmed and appended
      rw [if_pos ⟨⟨by omega, hj.1⟩, hj.2⟩, if_pos hj, hw.sub _ _ hin'.1 hj.1 hin.2]
      obtain ⟨q, hq, hjq⟩ := trim_append he hf (Nat.le_of_lt hj.2)
      rw [hq, ok_bind]
      have hstop := join_stop (Nat.le_of_lt hj.2) hj.1
      rw [← he.1]
      exact ih (reads_cons.mpr ⟨⟨hjq, ⟨hin.1, by omega⟩, join_holds hh hh' hj.1⟩, hm'⟩) (hsl _ rfl)
    · rw [if_neg (by omega), if_neg hj]
      by_cases hd : t.stop ≤ s.stop
      · rw [if_pos hd, if_pos hd, ← he.1]
        exact ih (reads_cons.mpr ⟨⟨he, hin, hh⟩, hm'⟩) (hsl _ rfl)
      · rw [if_neg hd, if_neg hd, if_pos (by omega)]
        obtain ⟨out, hout, hr⟩ := ih (reads_cons.mpr ⟨⟨hf, hin', hh'⟩, hm'⟩) htl
        rw [← hf.1, hout]
        exact ⟨_, rfl, reads_cons.mpr ⟨⟨⟨rfl, he.2⟩, hin, hh⟩, hr⟩⟩

/-- What the first loop leaves, for a new segment `n` and old segments `segs`. -/
def FirstPass.Leaves (rep : Nat → O) (lo hi : Nat) (S : Nat → Byte) (n : Segment Byte)
    (segs : List (Segment Byte)) : FirstPass O → Prop
  | .done => ∃ s ∈ segs, s.beg ≤ n.beg ∧ n.stop ≤ s.stop
  | .insert map p => ∃ segs' n', Reads rep lo hi S map segs' ∧
      Reads rep lo hi S [(rep n.beg, p)] [n'] ∧ n'.beg = n.beg ∧
      segs'.Sublist segs ∧ (∀ t ∈ segs', t.beg ≠ n.beg) ∧
      ∀ x, Covered (n' :: segs') x ↔ Covered (n :: segs) x
  | .appended map => ∃ segs', Reads rep lo hi S map segs' ∧
      segs'.map Segment.beg = segs.map Segment.beg ∧
      ∀ x, Covered segs' x ↔ Covered (n :: segs) x

omit [MergeOffset O] in
/-- A segment that does not meet the new one is passed over. -/
theorem FirstPass.Leaves.cons {n s : Segment Byte} {segs : List (Segment Byte)} {e : O × Packet}
    {r : FirstPass O} (h : r.Leaves rep lo hi S n segs)
    (he : Entry rep e s ∧ (lo ≤ s.beg ∧ s.stop ≤ hi) ∧ s.Holds S) (hne : s.beg ≠ n.beg) :
    (FirstPass.cons e r).Leaves rep lo hi S n (s :: segs) := by
  cases r with
  | done =>
    obtain ⟨t, ht, h⟩ := h
    exact ⟨t, List.mem_cons_of_mem _ ht, h⟩
  | insert map p =>
    obtain ⟨segs', n', hr, hn, hb, hsub, hkeys, hcov⟩ := h
    refine ⟨s :: segs', n', reads_cons.mpr ⟨he, hr⟩, hn, hb, hsub.cons_cons s, ?_, fun x => ?_⟩
    · intro t ht
      rcases List.mem_cons.mp ht with rfl | ht
      · exact hne
      · exact hkeys t ht
    · have := hcov x
      simp only [covered_cons] at this ⊢
      tauto
  | appended map =>
    obtain ⟨segs', hr, hb, hcov⟩ := h
    refine ⟨s :: segs', reads_cons.mpr ⟨he, hr⟩, by rw [List.map_cons, List.map_cons, hb],
      fun x => ?_⟩
    have := hcov x
    simp only [covered_cons] at this ⊢
    tauto

theorem firstPass_spec (hw : OffsetWindow rep lo hi) {map : List (O × Packet)} {p : Packet}
    {n : Segment Byte} {segs : List (Segment Byte)} (h : Reads rep lo hi S map segs)
    (hn : Reads rep lo hi S [(rep n.beg, p)] [n]) (hs : Sorted segs) :
    ∃ r, firstPass (rep n.beg) p map = .ok r ∧ r.Leaves rep lo hi S n segs := by
  obtain ⟨⟨hnp, hnin, hnh⟩, -⟩ := reads_cons.mp hn
  have hnl := hnp.len
  have hnb := n.beg_le_stop
  induction segs generalizing map with
  | nil =>
    cases h.entries
    exact ⟨_, rfl, [], n, h, hn, rfl, List.Sublist.refl _, by simp, fun x => Iff.rfl⟩
  | cons s segs ih =>
    rcases map with _ | ⟨e, map⟩
    · cases h.entries
    obtain ⟨⟨he, hin, hh⟩, hm⟩ := reads_cons.mp h
    obtain ⟨hst, hss⟩ := List.pairwise_cons.mp hs
    have hsb := s.beg_le_stop
    have hse : add e.1 e.2.len = rep s.stop := by
      rw [he.1, hw.add _ _ hin.1 (by rw [he.len]; omega), he.len]
    have hne : add (rep n.beg) p.len = rep n.stop := by
      rw [hw.add _ _ hnin.1 (by rw [hnl]; omega), hnl]
    simp only [firstPass, hse, hne]
    rw [he.1, hw.le _ _ hin.1 (by omega) hnin.1 (by omega),
      hw.le _ _ (by omega) hnin.2 (by omega) hin.2,
      hw.le _ _ hnin.1 (by omega) hin.1 (by omega), hw.le _ _ (by omega) hin.2 (by omega) hnin.2,
      hw.lt _ _ hnin.1 (by omega) hin.1 (by omega), hw.le _ _ hin.1 (by omega) (by omega) hnin.2,
      hw.le _ _ hnin.1 (by omega) (by omega) hin.2, hw.lt _ _ (by omega) hin.2 (by omega) hnin.2]
    simp only [Bool.and_eq_true, decide_eq_true_eq]
    by_cases h1 : s.beg ≤ n.beg ∧ n.stop ≤ s.stop
    · rw [if_pos h1]
      exact ⟨_, rfl, s, List.mem_cons_self, h1⟩
    rw [if_neg h1]
    by_cases h2 : n.beg ≤ s.beg ∧ s.stop ≤ n.stop
    · rw [if_pos h2]
      refine ⟨_, rfl, segs, n, hm, hn, rfl, List.sublist_cons_self s segs, fun t ht => ?_, fun x => ?_⟩
      · have := hst t ht
        omega
      · simp only [covered_cons]
        rw [← or_assoc]
        exact or_congr_left (by omega)
    rw [if_neg h2]
    by_cases h3 : (n.beg < s.beg ∧ s.beg ≤ n.stop) ∧ n.stop ≤ s.stop
    · rw [if_pos h3, hw.sub _ _ hin.1 h3.1.2 hnin.2]
      obtain ⟨q, hq, hj⟩ := trim_append hnp he h3.2
      have hstop := join_stop h3.2 h3.1.2
      rw [hq]
      refine ⟨_, rfl, segs, n.join s, hm,
        reads_cons.mpr ⟨⟨hj, ⟨hnin.1, by omega⟩, join_holds hnh hh h3.1.2⟩, Reads.nil⟩, rfl,
        List.sublist_cons_self s segs, fun t ht => ?_, fun x => ?_⟩
      · have := hst t ht
        omega
      · simp only [covered_cons, hstop]
        rw [← or_assoc]
        simp only [join]
        exact or_congr_left (by omega)
    rw [if_neg h3]
    by_cases h4 : (s.beg ≤ n.beg ∧ n.beg ≤ s.stop) ∧ s.stop < n.stop
    · rw [if_pos h4, hw.sub _ _ hnin.1 h4.1.2 hin.2]
      obtain ⟨q, hq, hj⟩ := trim_append he hnp (Nat.le_of_lt h4.2)
      have hstop := join_stop (Nat.le_of_lt h4.2) h4.1.2
      rw [hq]
      refine ⟨_, rfl, s.join n :: segs, reads_cons.mpr ⟨⟨⟨rfl, ?_⟩, ⟨hin.1, by omega⟩,
        join_holds hh hnh h4.1.2⟩, hm⟩, rfl, fun x => ?_⟩
      · rw [Packet.bytes_linearize]
        exact hj.2
      · simp only [covered_cons, hstop]
        rw [← or_assoc]
        simp only [join]
        exact or_congr_left (by omega)
    · -- the segments have no common point
      rw [if_neg h4]
      obtain ⟨r, hr, hl⟩ := ih hm hss
      rw [hr, ← he.1]
      exact ⟨_, rfl, hl.cons ⟨he, hin, hh⟩ (by omega)⟩

theorem emplace_spec (hw : OffsetWindow rep lo hi) {map : List (O × Packet)} {p : Packet}
    {n : Segment Byte} {segs : List (Segment Byte)} (h : Reads rep lo hi S map segs)
    (hn : Reads rep lo hi S [(rep n.beg, p)] [n]) :
    Reads rep lo hi S (emplace (rep n.beg) p map) (place n segs) := by
  obtain ⟨hn', -⟩ := reads_cons.mp hn
  have hnb := n.beg_le_stop
  induction segs generalizing map with
  | nil =>
    cases h.entries
    exact hn
  | cons s segs ih =>
    rcases map with _ | ⟨e, map⟩
    · cases h.entries
    obtain ⟨he, hm⟩ := reads_cons.mp h
    have hsb := s.beg_le_stop
    simp only [emplace, place]
    rw [he.1.1, hw.lt _ _ he.2.1.1 (by omega) hn'.2.1.1 (by omega),
      hw.lt _ _ hn'.2.1.1 (by omega) he.2.1.1 (by omega), ← he.1.1]
    simp only [decide_eq_true_eq]
    split
    · exact reads_cons.mpr ⟨he, ih hm⟩
    · split
      · exact reads_cons.mpr ⟨hn', h⟩
      · exact h

/-- The map of a merger in normal form stands for the stream positions `X`. -/
def Merged (rep : Nat → O) (lo hi : Nat) (S : Nat → Byte) (map : List (O × Packet))
    (X : Nat → Prop) : Prop :=
  ∃ segs, Reads rep lo hi S map segs ∧ Separated segs ∧ ∀ x, Covered segs x ↔ X x

omit [MergeOffset O] in
theorem Merged.nil : Merged rep lo hi S [] fun _ => False :=
  ⟨[], Reads.nil, List.Pairwise.nil, fun x => by simp⟩

theorem mergeAdjacent_spec (hw : OffsetWindow rep lo hi) {map : List (O × Packet)}
    {segs : List (Segment Byte)} (h : Reads rep lo hi S map segs) (hs : Sorted segs) :
    ∃ out segs', mergeAdjacent map = .ok out ∧ Reads rep lo hi S out segs' ∧ Separated segs' ∧
      ∀ x, Covered segs' x ↔ Covered segs x := by
  cases segs with
  | nil =>
    cases h.entries
    exact ⟨[], [], rfl, h, List.Pairwise.nil, fun x => Iff.rfl⟩
  | cons s segs =>
    rcases map with _ | ⟨e, map⟩
    · cases h.entries
    obtain ⟨out, hout, hr⟩ := secondPass_spec hw h hs
    exact ⟨out, _, hout, hr, sweep_separated s segs hs, covered_sweep s segs hs⟩

/-- One call of `merge` adds exactly the positions of the packet, and returns. -/
theorem merge_spec (hw : OffsetWindow rep lo hi) {map : List (O × Packet)} {X : Nat → Prop}
    (h : Merged rep lo hi S map X) {a : Nat} {p : Packet} (ha : lo ≤ a) (hp : a + p.len ≤ hi)
    (hb : p.bytes = slice S a p.len) :
    ∃ out, merge (rep a) p map = .ok out ∧
      Merged rep lo hi S out fun x => X x ∨ (a ≤ x ∧ x < a + p.len) := by
  obtain ⟨segs, hr, hsep, hcov⟩ := h
  let n : Segment Byte := ⟨a, p.bytes⟩
  have hstop : n.stop = a + p.len := by simp [n, stop]
  have hn : Reads rep lo hi S [(rep n.beg, p)] [n] := by
    refine reads_cons.mpr ⟨⟨⟨rfl, rfl⟩, ⟨ha, by omega⟩, ?_⟩, Reads.nil⟩
    simp only [n, Holds, Packet.length_bytes]
    exact hb
  have hunion : ∀ {segs' : List (Segment Byte)}, (∀ x, Covered segs' x ↔ Covered (n :: segs) x) →
      ∀ x, Covered segs' x ↔ X x ∨ (a ≤ x ∧ x < a + p.len) := by
    intro segs' h x
    rw [h x, covered_cons, hstop, hcov x]
    exact or_comm
  obtain ⟨r, hrun, hl⟩ := firstPass_spec hw hr hn hsep.sorted
  simp only [merge]
  rw [show rep a = rep n.beg from rfl, hrun, ok_bind]
  cases r with
  | done =>
    obtain ⟨s, hs, hsn⟩ := hl
    refine ⟨map, rfl, segs, hr, hsep, fun x => ?_⟩
    rw [hcov x]
    refine ⟨Or.inl, fun h => h.elim id fun hx => (hcov x).mp ⟨s, hs, ?_⟩⟩
    have : n.beg = a := rfl
    omega
  | insert map' p' =>
    obtain ⟨segs', n', hr', hn', hbeg, hsub, hkeys, hcov'⟩ := hl
    have hlin : Reads rep lo hi S [(rep n'.beg, p'.linearize)] [n'] := by
      obtain ⟨⟨he, hrest⟩, -⟩ := reads_cons.mp hn'
      exact reads_cons.mpr
        ⟨⟨⟨rfl, (Packet.bytes_linearize p').trans he.2⟩, hrest⟩, Reads.nil⟩
    rw [← hbeg] at hkeys ⊢
    obtain ⟨out, segs'', hout, hr'', hsep'', hcov''⟩ :=
      mergeAdjacent_spec hw (emplace_spec hw hr' hlin) (sorted_place (hsep.sorted.sublist hsub) hkeys)
    refine ⟨out, hout, segs'', hr'', hsep'', hunion fun x => ?_⟩
    rw [hcov'' x, covered_place hkeys, ← covered_cons, hcov' x]
  | appended map' =>
    obtain ⟨segs', hr', hbeg, hcov'⟩ := hl
    have hsorted : Sorted segs' := by
      have := hsep.sorted
      unfold Sorted at this ⊢
      rwa [← List.pairwise_map (f := Segment.beg) (R := (· < ·)), hbeg, List.pairwise_map]
    obtain ⟨out, segs'', hout, hr'', hsep'', hcov''⟩ := mergeAdjacent_spec hw hr' hsorted
    refine ⟨out, hout, segs'', hr'', hsep'', hunion fun x => ?_⟩
    rw [hcov'' x, hcov' x]

/-- In normal form each segment ends, in the code's own order, before the next begins. -/
theorem Reads.ordered (hw : OffsetWindow rep lo hi) {map : List (O × Packet)}
    {segs : List (Segment Byte)} (h : Reads rep lo hi S map segs) (hs : Separated segs) :
    map.Pairwise fun a b => lt a.1 b.1 = true ∧ lt (add a.1 a.2.len) b.1 = true := by
  induction segs generalizing map with
  | nil =>
    cases h.entries
    exact List.Pairwise.nil
  | cons s segs ih =>
    rcases map with _ | ⟨e, map⟩
    · cases h.entries
    obtain ⟨⟨he, hin, -⟩, hm⟩ := reads_cons.mp h
    obtain ⟨hst, hss⟩ := List.pairwise_cons.mp hs
    refine List.pairwise_cons.mpr ⟨fun f hf => ?_, ih hm hss⟩
    obtain ⟨t, ht, hft⟩ := hm.exists_entry hf
    have hlt := hst t ht
    have hin' := hm.inside t ht
    have hb₁ := s.beg_le_stop
    have hb₂ := t.beg_le_stop
    rw [he.1, hft.1, hw.add _ _ hin.1 (by rw [he.len]; omega), he.len,
      hw.lt _ _ hin.1 (by omega) hin'.1 (by omega), hw.lt _ _ (by omega) hin.2 hin'.1 (by omega)]
    simp only [decide_eq_true_eq]
    omega

end PacketMerger

end Seastar.Net
