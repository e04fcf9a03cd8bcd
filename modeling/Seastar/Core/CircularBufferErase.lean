import Seastar.Core.CircularBufferEnds

/-!
`erase` and `clear` of a `circular_buffer`. The elements after the erased ones, or those
before them, are moved together; the objects left over are destroyed by a loop over the
indices, which stops at once when these indices wrap.
-/

namespace Seastar

open Lib

namespace CircularBuffer

variable {T : Type} {b : CircularBuffer T} {ids : List Nat} {xs : List T} {P Q : Prop}

/-- The range of indices that `erase` of the elements from `i` to `j` destroys does not wrap. -/
def NoWrap (b : CircularBuffer T) (i j : Nat) : Prop :=
  i = j ∨
    if i < b.size.toNat - j then b.begin.toNat + (j - i) < 2 ^ 64 else j - i ≤ b.end_.toNat

instance (b : CircularBuffer T) (i j : Nat) : Decidable (NoWrap b i j) := by
  unfold NoWrap
  infer_instance

theorem distance_add {x : UInt64} {n : Nat} (hn : n ≤ 2 ^ 62) :
    distance x (x + UInt64.ofNat n) = n := by
  rw [distance, UInt64.add_comm, UInt64.add_sub_cancel]
  show (UInt64.ofNat n).toBitVec.toInt = _
  have hnat : (UInt64.ofNat n).toBitVec.toNat = n := toNat_ofNat_of_le (by omega)
  rw [BitVec.toInt_eq_toNat_of_lt, hnat]
  omega

/-- The iterators of `erase`, as far from the ends as their places are. -/
theorem Holds.distances (h : Holds P b ids xs) {i j : Nat} (hij : i ≤ j) (hj : j ≤ xs.length) :
    distance b.begin (b.begin + UInt64.ofNat i) = i ∧
      distance (b.begin + UInt64.ofNat j) b.end_ = ((xs.length - j : Nat) : Int) := by
  have hlen := h.length_le
  refine ⟨distance_add (by omega), ?_⟩
  have hend : b.end_ = b.begin + UInt64.ofNat j + UInt64.ofNat (xs.length - j) := by
    rw [h.end_, UInt64.add_assoc, ← UInt64.ofNat_add, Nat.add_sub_cancel' hj]
  rw [hend]
  exact distance_add (by omega)

/-- The first `d` elements are given up. -/
theorem Holds.dropFront (h : Holds P b ids xs) {d : Nat} {ys : List T} {m : Block T} {l : Ledger}
    (hlen : d + ys.length = xs.length) (hsize : m.size = b.storage.size)
    (hid : ∀ p < b.capacity.toNat, d ≤ p → m.idAt b.begin p = b.storage.idAt b.begin p)
    (hval : ∀ p < xs.length, d ≤ p → m.valueAt b.begin p = ys[p - d]?)
    (hrest : Q → P ∧ ∀ p < d, m.idAt b.begin p = none)
    (honce : Q → (l.destroyed ++ ids.drop d).Perm (List.range l.constructed)) :
    Holds Q { b with storage := m, ledger := l, begin := b.begin + UInt64.ofNat d }
      (ids.drop d) ys := by
  have hfits := h.fits
  have hcap : m.size.toNat = b.capacity.toNat := by
    rw [hsize]
    rfl
  constructor
  · exact h.power.imp (fun h0 => hsize.trans h0) fun hp => hp.congr hsize
  · show m.size.toNat ≤ _
    rw [hcap]
    exact h.bound
  · show b.end_ = b.begin + UInt64.ofNat d + UInt64.ofNat ys.length
    rw [h.end_, UInt64.add_assoc, ← UInt64.ofNat_add, hlen]
  · show ys.length ≤ m.size.toNat
    omega
  · rw [List.length_drop, h.len]
    omega
  · intro k hk
    show m.idAt (b.begin + UInt64.ofNat d) k = _
    rw [Block.idAt_add, hid (d + k) (by omega) (by omega), h.idAt (d + k) (by omega),
      List.getElem?_drop]
  · intro k hk
    show m.valueAt (b.begin + UInt64.ofNat d) k = _
    rw [Block.valueAt_add, hval (d + k) (by omega) (by omega), Nat.add_sub_cancel_left]
  · intro hQ k hk hge
    obtain ⟨hP, hnone⟩ := hrest hQ
    have hk' : k < b.capacity.toNat := by rwa [← hcap]
    have hp : m.Power := (h.power_of_lt hk').congr hsize
    show m.idAt (b.begin + UInt64.ofNat d) k = none
    rw [hp.idAt_add]
    split
    · rw [hid (d + k) (by omega) (by omega)]
      exact h.rest hP (d + k) (by omega) (by omega)
    · exact hnone _ (by omega)
  · exact honce

/-- The elements after the first `n` are given up. -/
theorem Holds.dropBack (h : Holds P b ids xs) {n : Nat} {ys : List T} {m : Block T} {l : Ledger}
    (hn : n ≤ xs.length) (hlen : ys.length = n) (hsize : m.size = b.storage.size)
    (hid : ∀ p < n, m.idAt b.begin p = b.storage.idAt b.begin p)
    (hval : ∀ p < n, m.valueAt b.begin p = ys[p]?)
    (hrest : Q → ∀ p < b.capacity.toNat, n ≤ p → m.idAt b.begin p = none)
    (honce : Q → (l.destroyed ++ ids.take n).Perm (List.range l.constructed)) :
    Holds Q { b with storage := m, ledger := l, end_ := b.begin + UInt64.ofNat n }
      (ids.take n) ys := by
  have hfits := h.fits
  have hcap : m.size.toNat = b.capacity.toNat := by
    rw [hsize]
    rfl
  constructor
  · exact h.power.imp (fun h0 => hsize.trans h0) fun hp => hp.congr hsize
  · show m.size.toNat ≤ _
    rw [hcap]
    exact h.bound
  · show b.begin + UInt64.ofNat n = b.begin + UInt64.ofNat ys.length
    rw [hlen]
  · show ys.length ≤ m.size.toNat
    omega
  · rw [List.length_take, h.len]
    omega
  · intro k hk
    show m.idAt b.begin k = _
    rw [hid k (by omega), h.idAt k (by omega), List.getElem?_take_of_lt (by omega)]
  · intro k hk
    show m.valueAt b.begin k = _
    rw [hval k (by omega)]
  · intro hQ k hk hge
    exact hrest hQ k (by rwa [← hcap]) (by omega)
  · exact honce

theorem Holds.isSome (h : Holds P b ids xs) {p : Nat} (hp : p < xs.length) :
    (b.storage.idAt b.begin p).isSome := by
  rw [h.idAt p hp, List.getElem?_eq_getElem (by rw [h.len]; exact hp)]
  rfl

theorem getElem?_erase (xs : List T) {i j : Nat} (hi : i ≤ xs.length) (k : Nat) :
    (xs.take i ++ xs.drop j)[k]? = if k < i then xs[k]? else xs[k - i + j]? := by
  split
  · rename_i h
    rw [List.getElem?_append_left (by rw [List.length_take]; omega), List.getElem?_take_of_lt h]
  · rename_i h
    rw [List.getElem?_append_right (by rw [List.length_take]; omega), List.length_take,
      Nat.min_eq_left hi, List.getElem?_drop, Nat.add_comm]

/-- The indices of the `n` places from `x` on wrap, or they do not. -/
theorem toNat_add_wrapped {x : UInt64} {n : Nat} (hn : n ≤ 2 ^ 62)
    (h : 2 ^ 64 ≤ x.toNat + n) : x + UInt64.ofNat n ≤ x := by
  rw [UInt64.le_iff_toNat_le, UInt64.toNat_add, toNat_ofNat_of_le (by omega)]
  have := x.toNat_lt
  omega

/-- `erase` when the elements in front are moved: afterwards nothing is lost unless the indices
wrap. -/
theorem Holds.eraseFront (h : Holds P b ids xs) {i j : Nat} (hij : i < j) (hj : j ≤ xs.length)
    (hfront : i < xs.length - j) :
    ∃ b' ids', b.erase (b.begin + UInt64.ofNat i) (b.begin + UInt64.ofNat j) = .ok b' ∧
      Holds (P ∧ b.begin.toNat + (j - i) < 2 ^ 64) b' ids' (xs.take i ++ xs.drop j) ∧
      (¬ b.begin.toNat + (j - i) < 2 ^ 64 → b'.ledger = b.ledger ∧
        b'.storage.size = b.storage.size ∧
        ∀ p < b.capacity.toNat, b'.storage.idAt b.begin p = b.storage.idAt b.begin p) := by
  have hlen := h.length_le
  have hfits := h.fits
  have hp := h.power_of_lt (Nat.lt_of_lt_of_le (Nat.lt_of_lt_of_le hij hj) hfits)
  obtain ⟨hd₁, hd₂⟩ := h.distances (Nat.le_of_lt hij) hj
  obtain ⟨d, rfl⟩ := Nat.exists_eq_add_of_le (Nat.le_of_lt hij)
  have hne : b.begin + UInt64.ofNat i ≠ b.begin + UInt64.ofNat (i + d) := by
    intro hc
    have := hd₁.symm.trans ((congrArg (distance b.begin) hc).trans (distance_add (by omega)))
    omega
  obtain ⟨m, hm, hsize, hid, hval⟩ := moveBackward_spec hp (n := i) (d := d) (by omega)
    (by omega) fun p hlt => h.isSome (by omega)
  have hys : (xs.take i ++ xs.drop (i + d)).length + d = xs.length := by
    rw [List.length_append, List.length_take, List.length_drop]
    omega
  have hval' : ∀ p < xs.length, d ≤ p →
      m.valueAt b.begin p = (xs.take i ++ xs.drop (i + d))[p - d]? := by
    intro p hlt hle
    rw [hval p (by omega) hle, getElem?_erase xs (by omega)]
    split
    · rw [if_pos (by omega), h.valueAt (p - d) (by omega)]
    · rw [if_neg (by omega), h.valueAt p hlt]
      congr 1
      omega
  rw [Nat.add_sub_cancel_left, erase, if_neg hne, hd₁, hd₂, if_pos (by omega), Int.toNat_natCast,
    hm, ok_bind]
  dsimp only
  by_cases hw : b.begin.toNat + d < 2 ^ 64
  · -- the indices of the objects left over do not wrap
    have hfuel : (b.begin + UInt64.ofNat d).toNat - b.begin.toNat = (ids.take d).length := by
      rw [toNat_add_ofNat hw, List.length_take, h.len]
      omega
    have htake : (ids.take d).length = d := by
      rw [List.length_take, h.len]
      omega
    have hcapm : m.size.toNat = b.capacity.toNat := by
      rw [hsize]
      rfl
    obtain ⟨m', hm', hsize', hid', hval''⟩ := destroyWhile_spec (b := { b with storage := m })
      (hp.congr hsize) (o := 0) (l := ids.take d) (by
        show 0 + _ ≤ m.size.toNat
        omega) (by
        show (b.begin + UInt64.ofNat 0).toNat + _ < _
        rw [add_ofNat_zero, htake]
        exact hw) (by
        intro k hk
        show m.idAt b.begin (0 + k) = _
        rw [htake] at hk
        rw [Nat.zero_add, hid k (by omega), h.idAt k (by omega), List.getElem?_take_of_lt hk])
    rw [add_ofNat_zero, Nat.zero_add, htake] at hm'
    rw [hfuel, htake, hm', ok_bind]
    refine ⟨_, _, rfl, h.dropFront (m := m') (l := ⟨b.ledger.constructed,
      b.ledger.destroyed ++ ids.take d⟩) (d := d) ?_ ?_ ?_ ?_ ?_ ?_, fun hc => absurd hw hc⟩
    · omega
    · exact hsize'.trans hsize
    · intro p hlt hle
      rw [hid' p (show p < m.size.toNat by omega), if_neg (by omega)]
      exact hid p hlt
    · intro p hlt hle
      rw [hval'' p (show p < m.size.toNat by omega) (by omega)]
      exact hval' p hlt hle
    · rintro ⟨hP, -⟩
      refine ⟨hP, fun p hlt => ?_⟩
      rw [hid' p (show p < m.size.toNat by omega), if_pos (by omega)]
    · rintro ⟨hP, -⟩
      show (b.ledger.destroyed ++ ids.take d ++ ids.drop d).Perm _
      rw [List.append_assoc, List.take_append_drop]
      exact h.once hP
  · rw [destroyWhile_wrapped (toNat_add_wrapped (by omega) (by omega)), ok_bind]
    refine ⟨_, _, rfl, h.dropFront (m := m) (l := b.ledger) (d := d) ?_ ?_ ?_ ?_ ?_ ?_,
      fun _ => ⟨rfl, hsize, hid⟩⟩
    · omega
    · exact hsize
    · exact fun p hlt _ => hid p hlt
    · exact hval'
    · exact fun hc => absurd hc.2 hw
    · exact fun hc => absurd hc.2 hw

/-- `erase` when the elements behind are moved. -/
theorem Holds.eraseBack (h : Holds P b ids xs) {i j : Nat} (hij : i < j) (hj : j ≤ xs.length)
    (hback : ¬ i < xs.length - j) :
    ∃ b' ids', b.erase (b.begin + UInt64.ofNat i) (b.begin + UInt64.ofNat j) = .ok b' ∧
      Holds (P ∧ j - i ≤ b.end_.toNat) b' ids' (xs.take i ++ xs.drop j) ∧
      (¬ j - i ≤ b.end_.toNat → b'.ledger = b.ledger ∧ b'.storage.size = b.storage.size ∧
        ∀ p < b.capacity.toNat, b'.storage.idAt b.begin p = b.storage.idAt b.begin p) := by
  have hlen := h.length_le
  have hfits := h.fits
  have hp := h.power_of_lt (Nat.lt_of_lt_of_le (Nat.lt_of_lt_of_le hij hj) hfits)
  obtain ⟨hd₁, hd₂⟩ := h.distances (Nat.le_of_lt hij) hj
  obtain ⟨n, hn⟩ := Nat.exists_eq_add_of_le hj
  have hne : b.begin + UInt64.ofNat i ≠ b.begin + UInt64.ofNat j := by
    intro hc
    have := hd₁.symm.trans ((congrArg (distance b.begin) hc).trans (distance_add (by omega)))
    omega
  have hsub : xs.length - j = n := by omega
  obtain ⟨m, hm, hsize, hid, hval⟩ := moveForward_spec hp (n := n) (d := i) (r := j) hij
    (by omega) fun p _ hlt => h.isSome (by omega)
  have hys : (xs.take i ++ xs.drop j).length = i + n := by
    rw [List.length_append, List.length_take, List.length_drop]
    omega
  have hval' : ∀ p < i + n, m.valueAt b.begin p = (xs.take i ++ xs.drop j)[p]? := by
    intro p hlt
    rw [hval p hlt, getElem?_erase xs (by omega)]
    split
    · rw [if_neg (by omega), h.valueAt _ (by omega)]
      congr 1
      omega
    · rw [if_pos (by omega), h.valueAt p (by omega)]
  -- `end` is that many places after the new end
  have hend : b.end_ = b.begin + UInt64.ofNat (i + n) + UInt64.ofNat (j - i) := by
    rw [h.end_, UInt64.add_assoc, ← UInt64.ofNat_add]
    congr 2
    omega
  have hiff : j - i ≤ b.end_.toNat ↔
      (b.begin + UInt64.ofNat (i + n)).toNat + (j - i) < 2 ^ 64 := by
    rw [hend, UInt64.toNat_add, toNat_ofNat_of_le (by omega)]
    have := (b.begin + UInt64.ofNat (i + n)).toNat_lt
    omega
  rw [erase, if_neg hne, hd₁, hd₂, if_neg (by omega), Int.toNat_natCast, hsub, hm, ok_bind]
  dsimp only
  by_cases hw : j - i ≤ b.end_.toNat
  · have hw' := hiff.mp hw
    have hdrop : (ids.drop (i + n)).length = j - i := by
      rw [List.length_drop, h.len]
      omega
    have hfuel : b.end_.toNat - (b.begin + UInt64.ofNat (i + n)).toNat = j - i := by
      rw [hend, toNat_add_ofNat hw']
      omega
    have hcapm : m.size.toNat = b.capacity.toNat := by
      rw [hsize]
      rfl
    obtain ⟨m', hm', hsize', hid', hval''⟩ := destroyWhile_spec (b := { b with storage := m })
      (hp.congr hsize) (o := i + n) (l := ids.drop (i + n)) (by
        show _ ≤ m.size.toNat
        omega) (by
        rw [hdrop]
        exact hw') (by
        intro k hk
        show m.idAt b.begin (i + n + k) = _
        rw [hdrop] at hk
        rw [hid _ (by omega), h.idAt _ (by omega), List.getElem?_drop])
    have hlast : i + n + (ids.drop (i + n)).length = xs.length := by omega
    rw [hlast, ← h.end_, hdrop] at hm'
    rw [hfuel, hm', ok_bind]
    refine ⟨_, _, rfl, h.dropBack (m := m') (l := ⟨b.ledger.constructed,
      b.ledger.destroyed ++ ids.drop (i + n)⟩) (n := i + n) (by omega) hys ?_ ?_ ?_ ?_ ?_,
      fun hc => absurd hw hc⟩
    · exact hsize'.trans hsize
    · intro p hlt
      rw [hid' p (show p < m.size.toNat by omega), if_neg (by omega)]
      exact hid p (by omega)
    · intro p hlt
      rw [hval'' p (show p < m.size.toNat by omega) (by omega)]
      exact hval' p hlt
    · rintro ⟨hP, -⟩ p hlt hle
      rw [hid' p (show p < m.size.toNat by omega)]
      split
      · rfl
      · show m.idAt b.begin p = none
        rw [hid p hlt]
        exact h.rest hP p hlt (by omega)
    · rintro ⟨hP, -⟩
      show (b.ledger.destroyed ++ ids.drop (i + n) ++ ids.take (i + n)).Perm _
      rw [List.append_assoc]
      have hcomm : (ids.drop (i + n) ++ ids.take (i + n)).Perm ids := by
        refine List.perm_append_comm.trans ?_
        rw [List.take_append_drop]
      exact (hcomm.append_left _).trans (h.once hP)
  · have hle : b.end_ ≤ b.begin + UInt64.ofNat (i + n) := by
      rw [hend]
      exact toNat_add_wrapped (by omega) (by omega)
    rw [destroyWhile_wrapped hle, ok_bind]
    refine ⟨_, _, rfl, h.dropBack (m := m) (l := b.ledger) (n := i + n) (by omega) hys ?_ ?_ ?_ ?_ ?_,
      fun _ => ⟨rfl, hsize, hid⟩⟩
    · exact hsize
    · exact fun p hlt => hid p (by omega)
    · exact hval'
    · exact fun hc => absurd hc.2 hw
    · exact fun hc => absurd hc.2 hw

/-- `erase` takes the elements between the iterators out of the list. When the indices wrap, no
object is destroyed. -/
theorem Holds.erase (h : Holds P b ids xs) {i j : Nat} (hij : i ≤ j) (hj : j ≤ xs.length) :
    ∃ b' ids', b.erase (b.begin + UInt64.ofNat i) (b.begin + UInt64.ofNat j) = .ok b' ∧
      Holds (P ∧ NoWrap b i j) b' ids' (xs.take i ++ xs.drop j) ∧
      (¬ NoWrap b i j → b'.ledger = b.ledger ∧ b'.storage.size = b.storage.size ∧
        ∀ p < b.capacity.toNat, b'.storage.idAt b.begin p = b.storage.idAt b.begin p) := by
  unfold NoWrap
  rw [h.size_toNat]
  rcases Nat.eq_or_lt_of_le hij with rfl | hlt
  · refine ⟨b, ids, if_pos rfl, ?_, fun hc => absurd (Or.inl rfl) hc⟩
    rw [List.take_append_drop]
    exact h.mono And.left
  · have hne : i ≠ j := Nat.ne_of_lt hlt
    by_cases hfront : i < xs.length - j
    · simp only [hne, hfront, if_true, false_or]
      exact h.eraseFront hlt hj hfront
    · simp only [hne, hfront, if_false, false_or]
      exact h.eraseBack hlt hj hfront

end CircularBuffer

end Seastar
