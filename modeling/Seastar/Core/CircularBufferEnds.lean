import Seastar.Core.CircularBufferContents

/-!
Growth of a `circular_buffer` and its two ends: what each operation does to the
elements it holds.
-/

namespace Seastar

open Lib

namespace CircularBuffer

variable {T : Type} {b : CircularBuffer T} {ids : List Nat} {xs : List T} {x : T} {a : Nat}
  {P : Prop}

/-! ## Removal at the ends -/

/-- `pop_front`. -/
theorem Holds.popFront (h : Holds P b (a :: ids) (x :: xs)) :
    ∃ b', b.popFront = .ok b' ∧ Holds P b' ids xs := by
  have hpos : 0 < b.capacity.toNat := Nat.lt_of_lt_of_le (Nat.succ_pos _) h.fits
  have hp := h.power_of_lt hpos
  have hd := destroyAt_spec hp (h.idAt 0 (Nat.succ_pos _))
  rw [add_ofNat_zero] at hd
  refine ⟨_, by rw [CircularBuffer.popFront, hd]; rfl, ?_⟩
  have hp' : (b.storage.put b.begin 0 none).Power := hp.congr rfl
  have hone : b.begin + 1 = b.begin + UInt64.ofNat 1 := rfl
  have hfits := h.fits
  rw [List.length_cons] at hfits
  constructor
  · exact Or.inr hp'
  · exact h.bound
  · show b.end_ = b.begin + 1 + UInt64.ofNat xs.length
    rw [h.end_, List.length_cons, hone, UInt64.add_assoc, ← UInt64.ofNat_add, Nat.add_comm]
  · exact Nat.le_of_succ_le hfits
  · exact Nat.succ.inj h.len
  · intro i hi
    show (b.storage.put b.begin 0 none).idAt (b.begin + 1) i = _
    rw [hone, Block.idAt_add, hp.idAt_put (show 1 + i < b.capacity.toNat by omega) hpos,
      if_neg (by omega), h.idAt (1 + i) (by rw [List.length_cons]; omega), Nat.add_comm,
      List.getElem?_cons_succ]
  · intro i hi
    show (b.storage.put b.begin 0 none).valueAt (b.begin + 1) i = _
    rw [hone, Block.valueAt_add, hp.valueAt_put (show 1 + i < b.capacity.toNat by omega) hpos,
      if_neg (by omega), h.valueAt (1 + i) (by rw [List.length_cons]; omega), Nat.add_comm,
      List.getElem?_cons_succ]
  · intro hP i hi hge
    show (b.storage.put b.begin 0 none).idAt (b.begin + 1) i = none
    rw [hone, hp'.idAt_add]
    split
    · rename_i hlt
      rw [hp.idAt_put hlt hpos, if_neg (by omega)]
      exact h.rest hP (1 + i) hlt (by rw [List.length_cons]; omega)
    · rename_i hlt
      have hi' : i < b.storage.size.toNat := hi
      rw [Block.put_size] at hlt
      have hzero : 1 + i - b.storage.size.toNat = 0 := by omega
      rw [Block.put_size, hzero, hp.idAt_put hpos hpos, if_pos rfl]
      rfl
  · intro hP
    have honce := h.once hP
    show (b.ledger.destroyed ++ [a] ++ ids).Perm _
    rw [List.append_assoc]
    exact honce

/-- `pop_back`. -/
theorem Holds.popBack (h : Holds P b (ids ++ [a]) (xs ++ [x])) :
    ∃ b', b.popBack = .ok b' ∧ Holds P b' ids xs := by
  have hfits := h.fits
  have hlen := h.len
  rw [List.length_append, List.length_append] at hlen
  rw [List.length_append] at hfits
  have hlen : ids.length = xs.length := Nat.succ.inj hlen
  have hlast : xs.length < b.capacity.toNat := hfits
  have hp := h.power_of_lt hlast
  have hend : b.end_ - 1 = b.begin + UInt64.ofNat xs.length := by
    rw [h.end_, List.length_append]
    exact add_ofNat_succ_sub _ _
  have hid : b.storage.idAt b.begin xs.length = some a := by
    rw [h.idAt xs.length (by simp), ← hlen]
    simp
  have hd := destroyAt_spec hp hid
  rw [← hend] at hd
  refine ⟨_, by rw [CircularBuffer.popBack, hd]; rfl, ?_⟩
  constructor
  · exact Or.inr (hp.congr rfl)
  · exact h.bound
  · exact hend
  · exact Nat.le_of_succ_le hfits
  · exact hlen
  · intro i hi
    show (b.storage.put b.begin xs.length none).idAt b.begin i = _
    rw [hp.idAt_put (show i < b.capacity.toNat by omega) hlast, if_neg (by omega),
      h.idAt i (by rw [List.length_append]; omega), List.getElem?_append_left (by omega)]
  · intro i hi
    show (b.storage.put b.begin xs.length none).valueAt b.begin i = _
    rw [hp.valueAt_put (show i < b.capacity.toNat by omega) hlast, if_neg (by omega),
      h.valueAt i (by rw [List.length_append]; omega), List.getElem?_append_left hi]
  · intro hP i hi hge
    show (b.storage.put b.begin xs.length none).idAt b.begin i = none
    rw [hp.idAt_put hi hlast]
    split
    · rfl
    · exact h.rest hP i hi (by rw [List.length_append, List.length_singleton]; omega)
  · intro hP
    show (b.ledger.destroyed ++ [a] ++ ids).Perm _
    rw [List.append_assoc]
    have hcomm : ([a] ++ ids).Perm (ids ++ [a]) := List.perm_append_comm
    exact (hcomm.append_left _).trans (h.once hP)

/-! ## Construction at the ends -/

theorem perm_range_succ {ds : List Nat} {n : Nat} (h : ds.Perm (List.range n)) :
    (ds ++ [n]).Perm (List.range (n + 1)) := by
  rw [List.range_succ]
  exact h.append_right _

/-- The construction of `emplace_back`, in a buffer with room. -/
theorem Holds.constructBack (h : Holds P b ids xs) (hroom : xs.length < b.capacity.toNat)
    (x : T) : ∃ m l, b.storage.construct (b.mask b.end_) (some x) b.ledger = .ok (m, l) ∧
      Holds P { b with storage := m, ledger := l, end_ := b.end_ + 1 }
        (ids ++ [b.ledger.constructed]) (xs ++ [x]) := by
  have hp := h.power_of_lt hroom
  refine ⟨_, _, by rw [h.end_]; exact hp.construct _, ?_⟩
  constructor
  · exact Or.inr (hp.congr rfl)
  · exact h.bound
  · show b.end_ + 1 = b.begin + UInt64.ofNat (xs ++ [x]).length
    rw [h.end_, add_ofNat_succ, List.length_append]
    rfl
  · show (xs ++ [x]).length ≤ b.capacity.toNat
    rw [List.length_append]
    exact hroom
  · rw [List.length_append, List.length_append, h.len]
    rfl
  · intro i hi
    rw [List.length_append, List.length_singleton] at hi
    show (b.storage.put b.begin xs.length _).idAt b.begin i = _
    rw [hp.idAt_put (show i < b.capacity.toNat by omega) hroom]
    split
    · rename_i hix
      rw [hix, ← h.len]
      simp
    · rw [h.idAt i (by omega), List.getElem?_append_left (by rw [h.len]; omega)]
  · intro i hi
    rw [List.length_append, List.length_singleton] at hi
    show (b.storage.put b.begin xs.length _).valueAt b.begin i = _
    rw [hp.valueAt_put (show i < b.capacity.toNat by omega) hroom]
    split
    · rename_i hix
      rw [hix]
      simp
    · rw [h.valueAt i (by omega), List.getElem?_append_left (by omega)]
  · intro hP i hi hge
    rw [List.length_append, List.length_singleton] at hge
    show (b.storage.put b.begin xs.length _).idAt b.begin i = none
    rw [hp.idAt_put hi hroom, if_neg (by omega)]
    exact h.rest hP i hi (by omega)
  · intro hP
    show (b.ledger.destroyed ++ (ids ++ [b.ledger.constructed])).Perm
      (List.range (b.ledger.constructed + 1))
    rw [← List.append_assoc]
    exact perm_range_succ (h.once hP)

/-- The construction of `emplace_front`, in a buffer with room. -/
theorem Holds.constructFront (h : Holds P b ids xs) (hroom : xs.length < b.capacity.toNat)
    (x : T) : ∃ m l, b.storage.construct (b.mask (b.begin - 1)) (some x) b.ledger = .ok (m, l) ∧
      Holds P { b with storage := m, ledger := l, begin := b.begin - 1 }
        (b.ledger.constructed :: ids) (x :: xs) := by
  have hp := h.power_of_lt hroom
  have hpos : 0 < b.capacity.toNat := Nat.lt_of_le_of_lt (Nat.zero_le _) hroom
  -- the old places are counted from the new beginning
  have hbegin : b.begin = b.begin - 1 + UInt64.ofNat 1 := (UInt64.sub_add_cancel _ _).symm
  have hid : ∀ i, b.storage.idAt (b.begin - 1) (1 + i) = b.storage.idAt b.begin i := by
    intro i
    rw [← Block.idAt_add, ← hbegin]
  have hval : ∀ i, b.storage.valueAt (b.begin - 1) (1 + i) = b.storage.valueAt b.begin i := by
    intro i
    rw [← Block.valueAt_add, ← hbegin]
  refine ⟨_, _, by rw [← add_ofNat_zero (b.begin - 1)]; exact hp.construct _, ?_⟩
  constructor
  · exact Or.inr (hp.congr rfl)
  · exact h.bound
  · show b.end_ = b.begin - 1 + UInt64.ofNat (xs.length + 1)
    rw [h.end_, Nat.add_comm, UInt64.ofNat_add, ← UInt64.add_assoc, ← hbegin]
  · exact hroom
  · exact congrArg (· + 1) h.len
  · intro i hi
    rw [List.length_cons] at hi
    show (b.storage.put (b.begin - 1) 0 _).idAt (b.begin - 1) i = _
    rw [hp.idAt_put (show i < b.capacity.toNat by omega) hpos]
    cases i with
    | zero => rfl
    | succ i =>
      rw [if_neg (Nat.succ_ne_zero i), Nat.add_comm, hid, h.idAt i (by omega), Nat.add_comm,
        List.getElem?_cons_succ]
  · intro i hi
    rw [List.length_cons] at hi
    show (b.storage.put (b.begin - 1) 0 _).valueAt (b.begin - 1) i = _
    rw [hp.valueAt_put (show i < b.capacity.toNat by omega) hpos]
    cases i with
    | zero => rfl
    | succ i =>
      rw [if_neg (Nat.succ_ne_zero i), Nat.add_comm, hval, h.valueAt i (by omega), Nat.add_comm,
        List.getElem?_cons_succ]
  · intro hP i hi hge
    rw [List.length_cons] at hge
    show (b.storage.put (b.begin - 1) 0 _).idAt (b.begin - 1) i = none
    rw [hp.idAt_put hi hpos, if_neg (by omega)]
    obtain ⟨j, rfl⟩ := Nat.exists_eq_add_of_le (Nat.lt_of_lt_of_le (Nat.succ_pos _) hge)
    rw [Nat.succ_eq_add_one, Nat.zero_add, hid]
    exact h.rest hP j (Nat.lt_of_le_of_lt (Nat.le_add_left j _) hi) (by omega)
  · intro hP
    have honce := perm_range_succ (h.once hP)
    rw [List.append_assoc] at honce
    have hcomm : ([b.ledger.constructed] ++ ids).Perm (ids ++ [b.ledger.constructed]) :=
      List.perm_append_comm
    exact (hcomm.append_left _).trans honce

/-! ## Objects on their way to new storage -/

/-- The first `k` elements have copies in the new storage of `c` slots; these are the objects from
number `n` on. -/
structure Copied (n : Nat) (xs : List T) (c : UInt64) (k : Nat) (t : Transfer T) : Prop where
  p : t.p = UInt64.ofNat k
  size : t.target.size = c
  idAt : ∀ p < c.toNat, t.target.idAt 0 p = if p < k then some (n + p) else none
  valueAt : ∀ p < k, t.target.valueAt 0 p = xs[p]?

/-- The first `k` objects of the old storage are destroyed. -/
structure Vacated (b : CircularBuffer T) (k : Nat) (m : Block T) : Prop where
  size : m.size = b.storage.size
  idAt : ∀ p < b.capacity.toNat, k ≤ p → m.idAt b.begin p = b.storage.idAt b.begin p
  valueAt : ∀ p < b.capacity.toNat, k ≤ p → m.valueAt b.begin p = b.storage.valueAt b.begin p

theorem Vacated.start (b : CircularBuffer T) : Vacated b 0 b.storage :=
  ⟨rfl, fun _ _ _ => rfl, fun _ _ _ => rfl⟩

theorem Vacated.destroy {k : Nat} {m : Block T} (h : Holds P b ids xs) (hm : Vacated b k m)
    (hk : k < xs.length) (l : Ledger) :
    ∃ m', m.destroy (b.mask (b.begin + UInt64.ofNat k)) l = .ok (m',
      { l with destroyed := l.destroyed ++ (ids[k]?).toList }) ∧ Vacated b (k + 1) m' := by
  have hcap : k < b.capacity.toNat := Nat.lt_of_lt_of_le hk h.fits
  have hp : m.Power := (h.power_of_lt hcap).congr hm.size
  have hsize : m.size.toNat = b.capacity.toNat := by
    rw [hm.size]
    rfl
  have hmask : b.mask (b.begin + UInt64.ofNat k) = m.place (b.begin + UInt64.ofNat k) := by
    rw [Block.place, hm.size]
    rfl
  have hk' : k < ids.length := by rwa [h.len]
  have hid : m.idAt b.begin k = some ids[k] := by
    rw [hm.idAt k hcap (Nat.le_refl k), h.idAt k hk, List.getElem?_eq_getElem hk']
  refine ⟨m.put b.begin k none, ?_, hm.size, ?_, ?_⟩
  · rw [hmask, hp.destroy hid, List.getElem?_eq_getElem hk']
    rfl
  · intro p hlt hle
    rw [hp.idAt_put (by omega) (by omega), if_neg (by omega)]
    exact hm.idAt p hlt (Nat.le_of_succ_le hle)
  · intro p hlt hle
    rw [hp.valueAt_put (by omega) (by omega), if_neg (by omega)]
    exact hm.valueAt p hlt (Nat.le_of_succ_le hle)

theorem Vacated.get {k : Nat} {m : Block T} (h : Holds P b ids xs) (hm : Vacated b k m)
    (hk : k < xs.length) :
    ∃ id, m.get (b.mask (b.begin + UInt64.ofNat k)) = .ok ⟨id, xs[k]?⟩ := by
  have hcap : k < b.capacity.toNat := Nat.lt_of_lt_of_le hk h.fits
  have hp : m.Power := (h.power_of_lt hcap).congr hm.size
  have hmask : b.mask (b.begin + UInt64.ofNat k) = m.place (b.begin + UInt64.ofNat k) := by
    rw [Block.place, hm.size]
    rfl
  have hv := hm.valueAt k hcap (Nat.le_refl k)
  rw [h.valueAt k hk, List.getElem?_eq_getElem hk] at hv
  obtain ⟨e, he, hx⟩ := Option.bind_eq_some_iff.mp hv
  refine ⟨e.id, ?_⟩
  rw [hmask, hp.get he, List.getElem?_eq_getElem hk, ← hx]

theorem Copied.start (n : Nat) (xs : List T) (c : UInt64) (m : Block T) (l : Ledger) :
    Copied n xs c 0 { source := m, target := { size := c }, ledger := l } where
  p := rfl
  size := rfl
  idAt _ _ := rfl
  valueAt _ h := absurd h (Nat.not_lt_zero _)

theorem Copied.power {n k : Nat} {c : UInt64} {t : Transfer T} (ht : Copied n xs c k t)
    (hc : ∃ j ≤ 62, c.toNat = 2 ^ j) : t.target.Power := by
  rw [Block.Power, ht.size]
  exact hc.imp fun j hj => ⟨Nat.le_succ_of_le hj.1, hj.2⟩

/-- New storage is indexed from zero. -/
theorem place_ofNat {m : Block T} (hp : m.Power) {k : Nat} (hk : k < m.size.toNat) :
    m.place (0 + UInt64.ofNat k) = UInt64.ofNat k := by
  apply UInt64.toNat_inj.mp
  have hle := hp.le
  rw [hp.place_toNat, Ring.slot_add hp.dvd, toNat_ofNat_of_le (by omega), UInt64.toNat_zero,
    Nat.zero_add, Nat.mod_eq_of_lt hk]

theorem Copied.construct {n k : Nat} {c : UInt64} {t : Transfer T} (ht : Copied n xs c k t)
    (hc : ∃ j ≤ 62, c.toNat = 2 ^ j) (hk : k < c.toNat) (hn : t.ledger.constructed = n + k)
    (source : Block T) (l : Ledger) :
    ∃ target, t.target.construct t.p xs[k]? t.ledger =
        .ok (target, { t.ledger with constructed := n + (k + 1) }) ∧
      Copied n xs c (k + 1) { source, target, p := t.p + 1, ledger := l } := by
  have hp := ht.power hc
  have hsize : t.target.size.toNat = c.toNat := by rw [ht.size]
  have hcon : t.target.construct (t.target.place (0 + UInt64.ofNat k)) xs[k]? t.ledger = _ :=
    hp.construct _
  rw [place_ofNat hp (by omega), ← ht.p, hn] at hcon
  refine ⟨_, hcon, ?_⟩
  constructor
  · show t.p + 1 = _
    rw [ht.p, UInt64.ofNat_add]
    rfl
  · exact ht.size
  · intro p hlt
    show (t.target.put 0 k _).idAt 0 p = _
    rw [hp.idAt_put (by omega) (by omega)]
    by_cases hpk : p = k
    · rw [if_pos hpk, if_pos (by omega), hpk]
      rfl
    · rw [if_neg hpk, ht.idAt p hlt]
      by_cases hlt' : p < k
      · rw [if_pos hlt', if_pos (by omega)]
      · rw [if_neg hlt', if_neg (by omega)]
  · intro p hlt
    show (t.target.put 0 k _).valueAt 0 p = _
    rw [hp.valueAt_put (by omega) (by omega)]
    split
    · rename_i hpk
      rw [hpk]
      rfl
    · exact ht.valueAt p (by omega)

/-- The copies are destroyed again. -/
theorem Copied.destroyCopies {n k : Nat} {c : UInt64} {t : Transfer T} (ht : Copied n xs c k t)
    (hc : ∃ j ≤ 62, c.toNat = 2 ^ j) (hk : k ≤ c.toNat) :
    ∃ t', destroyCopies k t = .ok t' ∧ t'.ledger = { t.ledger with
      destroyed := t.ledger.destroyed ++ (List.range' n k).reverse } := by
  induction k generalizing t with
  | zero =>
    refine ⟨t, rfl, ?_⟩
    rw [List.range'_zero, List.reverse_nil, List.append_nil]
  | succ k ih =>
    have hp := ht.power hc
    have hsize : t.target.size.toNat = c.toNat := by rw [ht.size]
    have hid : t.target.idAt 0 k = some (n + k) := by
      rw [ht.idAt k hk, if_pos (Nat.lt_succ_self k)]
    have hdes := hp.destroy (l := t.ledger) hid
    have hprev : t.p - 1 = UInt64.ofNat k := by
      have := add_ofNat_succ_sub 0 k
      rwa [UInt64.zero_add, UInt64.zero_add, ← ht.p] at this
    rw [place_ofNat hp (by omega), ← hprev] at hdes
    obtain ⟨t', ht', hl⟩ := ih (t := { t with
        target := t.target.put 0 k none
        p := t.p - 1
        ledger := { t.ledger with destroyed := t.ledger.destroyed ++ [n + k] } })
      { p := hprev, size := ht.size, idAt := by
          intro p hlt
          show (t.target.put 0 k none).idAt 0 p = _
          rw [hp.idAt_put (by omega) (by omega)]
          by_cases hpk : p = k
          · rw [if_pos hpk, if_neg (by omega)]
            rfl
          · rw [if_neg hpk, ht.idAt p hlt]
            by_cases hlt' : p < k
            · rw [if_pos hlt', if_pos (by omega)]
            · rw [if_neg hlt', if_neg (by omega)],
        valueAt := by
          intro p hlt
          show (t.target.put 0 k none).valueAt 0 p = _
          rw [hp.valueAt_put (by omega) (by omega), if_neg (by omega)]
          exact ht.valueAt p (by omega) } (by omega)
    refine ⟨t', ?_, ?_⟩
    · rw [CircularBuffer.destroyCopies, hdes]
      exact ht'
    · rw [hl, List.range'_concat, List.reverse_append, List.append_assoc, Nat.one_mul]
      rfl

/-! ## Growth -/

theorem perm_range_add {ds : List Nat} {n : Nat} (h : ds.Perm (List.range n)) (k : Nat) :
    (ds ++ List.range' n k).Perm (List.range (n + k)) := by
  have hsplit : List.range (n + k) = List.range n ++ List.range' n k := by
    rw [List.range_eq_range', List.range_eq_range', ← List.range'_append_1, Nat.zero_add]
  rw [hsplit]
  exact h.append_right _

/-- All elements are in the new storage. -/
theorem Holds.adopt (h : Holds P b ids xs) {c : UInt64} {t : Transfer T}
    (hc : ∃ j ≤ 62, c.toNat = 2 ^ j) (hfit : xs.length ≤ c.toNat)
    (ht : Copied b.ledger.constructed xs c xs.length t)
    (hl : t.ledger = ⟨b.ledger.constructed + xs.length, b.ledger.destroyed ++ ids⟩) :
    Holds P (adopt t) (List.range' b.ledger.constructed xs.length) xs where
  power := Or.inr (ht.power hc)
  bound := by
    obtain ⟨j, hj, hcj⟩ := hc
    show t.target.size.toNat ≤ _
    rw [ht.size, hcj]
    exact Nat.pow_le_pow_right (by decide) hj
  end_ := by
    show t.p = 0 + UInt64.ofNat xs.length
    rw [ht.p, UInt64.zero_add]
  fits := by
    show xs.length ≤ t.target.size.toNat
    rw [ht.size]
    exact hfit
  len := List.length_range'
  idAt i hi := by
    show t.target.idAt 0 i = _
    rw [ht.idAt i (by omega), if_pos hi, List.getElem?_range' hi, Nat.one_mul]
  valueAt i hi := ht.valueAt i hi
  rest _ i hi hge := by
    show t.target.idAt 0 i = none
    rw [ht.idAt i (by rwa [← ht.size]), if_neg (Nat.not_lt.mpr hge)]
  once hP := by
    show (t.ledger.destroyed ++ _).Perm (List.range t.ledger.constructed)
    rw [hl]
    exact perm_range_add (h.once hP) _

theorem take_succ_toList (l : List Nat) (k : Nat) : l.take (k + 1) = l.take k ++ (l[k]?).toList :=
  List.take_add_one

/-- The elements are moved to new storage. -/
theorem Holds.transferMove (h : Holds P b ids xs) {c : UInt64}
    (hc : ∃ j ≤ 62, c.toNat = 2 ^ j) (hfit : xs.length ≤ c.toNat) :
    ∃ t, b.forEach transferMove
        { source := b.storage, target := { size := c }, ledger := b.ledger } = .ok t ∧
      Holds P (CircularBuffer.adopt t) (List.range' b.ledger.constructed xs.length) xs ∧
      (CircularBuffer.adopt t).capacity = c := by
  unfold forEach
  rw [h.size_toNat]
  obtain ⟨t, ht, hv, hcop, hl⟩ := forIndices_spec
    (f := fun i => CircularBuffer.transferMove (b.mask i))
    (I := fun k t => Vacated b k t.source ∧ Copied b.ledger.constructed xs c k t ∧
      t.ledger = ⟨b.ledger.constructed + k, b.ledger.destroyed ++ ids.take k⟩)
    (n := xs.length) ⟨Vacated.start b, Copied.start _ xs c b.storage b.ledger, by simp⟩ (by
      rintro k hk t ⟨hv, hcop, hl⟩
      obtain ⟨id, hget⟩ := hv.get h hk
      obtain ⟨source, hdes, hv'⟩ := hv.destroy h hk
        ({ t.ledger with constructed := b.ledger.constructed + (k + 1) })
      obtain ⟨target, hcon, hcop'⟩ := hcop.construct hc (by omega) (by rw [hl]) source
        ({ t.ledger with
          constructed := b.ledger.constructed + (k + 1)
          destroyed := t.ledger.destroyed ++ (ids[k]?).toList })
      refine ⟨_, ?_, hv', hcop', ?_⟩
      · rw [CircularBuffer.transferMove, hget, ok_bind]
        dsimp only
        rw [hcon, ok_bind]
        dsimp only
        rw [hdes]
        rfl
      · rw [hl, take_succ_toList, List.append_assoc])
  refine ⟨t, ht, h.adopt hc hfit hcop ?_, hcop.size⟩
  rw [hl, ← h.len, List.take_length]

/-- The first elements are copied to new storage. -/
theorem Holds.transferCopy (h : Holds P b ids xs) {c : UInt64}
    (hc : ∃ j ≤ 62, c.toNat = 2 ^ j) (hfit : xs.length ≤ c.toNat) {n : Nat}
    (hn : n ≤ xs.length) :
    ∃ t, forIndices (fun i => transferCopy (b.mask i)) n b.begin
        { source := b.storage, target := { size := c }, ledger := b.ledger } = .ok t ∧
      t.source = b.storage ∧ Copied b.ledger.constructed xs c n t ∧
      t.ledger = { b.ledger with constructed := b.ledger.constructed + n } := by
  refine forIndices_spec
    (I := fun k t => t.source = b.storage ∧ Copied b.ledger.constructed xs c k t ∧
      t.ledger = { b.ledger with constructed := b.ledger.constructed + k })
    ⟨rfl, Copied.start _ xs c b.storage b.ledger, rfl⟩ ?_
  rintro k hk t ⟨hs, hcop, hl⟩
  have hk' : k < xs.length := Nat.lt_of_lt_of_le hk hn
  obtain ⟨id, hget⟩ := Vacated.get (k := k) (m := b.storage) h
    ⟨rfl, fun _ _ _ => rfl, fun _ _ _ => rfl⟩ hk'
  obtain ⟨target, hcon, hcop'⟩ := hcop.construct hc (by omega) (by rw [hl]) t.source
    ({ t.ledger with constructed := b.ledger.constructed + (k + 1) })
  refine ⟨{ t with
    target
    p := t.p + 1
    ledger := { t.ledger with constructed := b.ledger.constructed + (k + 1) } }, ?_, hs, hcop', ?_⟩
  · rw [CircularBuffer.transferCopy, hs, hget, ok_bind]
    dsimp only
    rw [hcon, ← hs]
    rfl
  · rw [hl]

/-- The elements are copied, and the old objects destroyed. -/
theorem Holds.transferBoth (h : Holds P b ids xs) {c : UInt64}
    (hc : ∃ j ≤ 62, c.toNat = 2 ^ j) (hfit : xs.length ≤ c.toNat) :
    ∃ t t', b.forEach CircularBuffer.transferCopy
        { source := b.storage, target := { size := c }, ledger := b.ledger } = .ok t ∧
      b.forEach transferDestroy t = .ok t' ∧
      Holds P (CircularBuffer.adopt t') (List.range' b.ledger.constructed xs.length) xs ∧
      (CircularBuffer.adopt t').capacity = c := by
  unfold forEach
  rw [h.size_toNat]
  obtain ⟨t, ht, hs, hcop, hl⟩ := h.transferCopy hc hfit (Nat.le_refl _)
  obtain ⟨t', ht', hv, hp, htar, hl'⟩ := forIndices_spec
    (f := fun i => transferDestroy (b.mask i))
    (I := fun k t' => Vacated b k t'.source ∧ t'.p = t.p ∧ t'.target = t.target ∧
      t'.ledger = ⟨b.ledger.constructed + xs.length, b.ledger.destroyed ++ ids.take k⟩)
    (n := xs.length) (s := t) ⟨hs ▸ Vacated.start b, rfl, rfl, by rw [hl]; simp⟩ (by
      rintro k hk u ⟨hv, hp, htar, hu⟩
      obtain ⟨source, hdes, hv'⟩ := hv.destroy h hk u.ledger
      refine ⟨{ u with
        source
        ledger := { u.ledger with destroyed := u.ledger.destroyed ++ (ids[k]?).toList } },
        ?_, hv', hp, htar, ?_⟩
      · rw [transferDestroy, hdes]
        rfl
      · rw [hu, take_succ_toList, List.append_assoc])
  refine ⟨t, t', ht, ht', h.adopt hc hfit ?_ ?_, ?_⟩
  · exact ⟨hp.trans hcop.p, htar ▸ hcop.size, htar ▸ hcop.idAt, htar ▸ hcop.valueAt⟩
  · rw [hl', ← h.len, List.take_length]
  · show t'.target.size = c
    rw [htar, hcop.size]

/-- `expand`: an exception leaves the elements where they are. -/
theorem Holds.expand (h : Holds P b ids xs) (g : Growth) {c : UInt64}
    (hc : ∃ j, c.toNat = 2 ^ j) (hfit : xs.length ≤ c.toNat) :
    ∃ thrown b' ids', b.expand g c = .ok (thrown, b') ∧ Holds P b' ids' xs ∧
      (thrown = false → b'.capacity = c) := by
  unfold CircularBuffer.expand
  split
  · exact ⟨true, b, ids, rfl, h, fun h => absurd h (by decide)⟩
  · rename_i hmax
    have hc : ∃ j ≤ 62, c.toNat = 2 ^ j := by
      obtain ⟨j, hj⟩ := hc
      refine ⟨j, ?_, hj⟩
      have hle : c.toNat < 2 ^ 63 := by
        have hlt : ¬ maxSize < c := by
          intro hlt
          rw [decide_eq_true hlt, Bool.or_true] at hmax
          exact hmax rfl
        rw [UInt64.lt_iff_toNat_lt] at hlt
        exact Nat.lt_of_le_of_lt (Nat.le_of_not_lt hlt) (by decide)
      rw [hj] at hle
      exact Nat.le_of_lt_succ ((Nat.pow_lt_pow_iff_right (by decide)).mp hle)
    dsimp only
    split
    · obtain ⟨t, ht, hh, hcap⟩ := h.transferMove hc hfit
      exact ⟨false, CircularBuffer.adopt t, _, by rw [ht]; rfl, hh, fun _ => hcap⟩
    · split
      · rename_i k hk
        rw [Option.filter_eq_some_iff, h.size_toNat, decide_eq_true_iff] at hk
        obtain ⟨t, ht, -, hcop, hl⟩ := h.transferCopy hc hfit (Nat.le_of_lt hk.2)
        obtain ⟨t', ht', hl'⟩ := hcop.destroyCopies hc (by omega)
        refine ⟨true, { b with ledger := t'.ledger }, ids, ?_, ?_, fun h => absurd h (by decide)⟩
        · rw [ht, ok_bind, ht', ok_bind]
        · refine { h with once := fun hP => ?_ }
          show (t'.ledger.destroyed ++ ids).Perm (List.range t'.ledger.constructed)
          rw [hl', hl]
          have hperm := perm_range_add (h.once hP) k
          refine List.Perm.trans ?_ hperm
          dsimp only
          rw [List.append_assoc, List.append_assoc]
          apply List.Perm.append_left
          exact List.perm_append_comm.trans ((List.reverse_perm _).append_left _)
      · obtain ⟨t, t', ht, ht', hh, hcap⟩ := h.transferBoth hc hfit
        refine ⟨false, CircularBuffer.adopt t', _, ?_, hh, fun _ => hcap⟩
        rw [ht, ok_bind, ht', ok_bind]

/-- `maybe_expand` makes room for one more. -/
theorem Holds.maybeExpand (h : Holds P b ids xs) (g : Growth) :
    ∃ thrown b' ids', b.maybeExpand g = .ok (thrown, b') ∧ Holds P b' ids' xs ∧
      (thrown = false → xs.length < b'.capacity.toNat) := by
  have hlen := h.length_le
  have hneed : (b.end_ - b.begin + 1).toNat = xs.length + 1 := by
    have hs : b.end_ - b.begin = UInt64.ofNat xs.length := h.size_eq
    rw [hs, UInt64.toNat_add, toNat_ofNat_of_le (by omega), UInt64.toNat_one, Nat.mod_eq_of_lt (by omega)]
  unfold CircularBuffer.maybeExpand
  split
  · -- the new capacity is one or twice the old one
    have hc : (max (b.capacity * 2) 1).toNat = max (b.capacity.toNat * 2) 1 := by
      have hcap : (b.capacity * 2).toNat = b.capacity.toNat * 2 := by
        have hle := h.bound
        rw [UInt64.toNat_mul]
        exact Nat.mod_eq_of_lt (by
          show b.capacity.toNat * 2 < 2 ^ 64
          omega)
      show (if b.capacity * 2 ≤ 1 then 1 else b.capacity * 2 : UInt64).toNat = _
      split
      · rename_i hle
        rw [UInt64.le_iff_toNat_le, hcap] at hle
        exact (Nat.max_eq_right hle).symm
      · rename_i hle
        rw [UInt64.le_iff_toNat_le, hcap] at hle
        rw [hcap]
        exact (Nat.max_eq_left (Nat.le_of_not_le hle)).symm
    have hpow : ∃ j, (max (b.capacity * 2) 1).toNat = 2 ^ j := by
      rcases h.power with h0 | ⟨k, -, hk⟩
      · refine ⟨0, ?_⟩
        rw [hc, h0]
        rfl
      · refine ⟨k + 1, ?_⟩
        have hk' : b.capacity.toNat = 2 ^ k := hk
        have := Nat.two_pow_pos k
        rw [hc, hk', ← Nat.pow_succ]
        exact Nat.max_eq_left (Nat.two_pow_pos _)
    have hroom : xs.length < max (b.capacity.toNat * 2) 1 := by
      have := h.fits
      omega
    obtain ⟨thrown, b', ids', he, hh, hcap⟩ := h.expand g hpow (by rw [hc]; omega)
    refine ⟨thrown, b', ids', he, hh, fun ht => ?_⟩
    rw [hcap ht, hc]
    exact hroom
  · rename_i hroom
    rw [UInt64.lt_iff_toNat_lt, hneed] at hroom
    exact ⟨false, b, ids, rfl, h, fun _ => by omega⟩

/-! ## The operations at both ends -/

/-- `emplace_back` adds the element, unless an exception is thrown. -/
theorem Holds.emplaceBack (h : Holds P b ids xs) (g : Growth) (y : Option T) :
    ∃ thrown b' ids', b.emplaceBack g y = .ok (thrown, b') ∧
      Holds P b' ids' (if thrown then xs else xs ++ y.toList) := by
  obtain ⟨thrown, b', ids', he, hh, hroom⟩ := h.maybeExpand g
  unfold CircularBuffer.emplaceBack
  rw [he, ok_bind]
  cases thrown with
  | true => exact ⟨true, b', ids', rfl, hh⟩
  | false =>
    cases y with
    | none => exact ⟨true, b', ids', rfl, hh⟩
    | some x =>
      obtain ⟨m, l, hcon, hh'⟩ := hh.constructBack (hroom rfl) x
      exact ⟨false, _, _, by simp only [Option.isNone_some, Bool.or_false, hcon]; rfl, hh'⟩

/-- `emplace_front`. -/
theorem Holds.emplaceFront (h : Holds P b ids xs) (g : Growth) (y : Option T) :
    ∃ thrown b' ids', b.emplaceFront g y = .ok (thrown, b') ∧
      Holds P b' ids' (if thrown then xs else y.toList ++ xs) := by
  obtain ⟨thrown, b', ids', he, hh, hroom⟩ := h.maybeExpand g
  unfold CircularBuffer.emplaceFront
  rw [he, ok_bind]
  cases thrown with
  | true => exact ⟨true, b', ids', rfl, hh⟩
  | false =>
    cases y with
    | none => exact ⟨true, b', ids', rfl, hh⟩
    | some x =>
      obtain ⟨m, l, hcon, hh'⟩ := hh.constructFront (hroom rfl) x
      exact ⟨false, _, _, by simp only [Option.isNone_some, Bool.or_false, hcon]; rfl, hh'⟩

/-! ## Reservation -/

theorem log2ceil_spec {n : UInt64} (hpos : 0 < n.toNat) :
    log2ceil n ≤ 64 ∧ n.toNat ≤ 2 ^ log2ceil n ∧ (n.toNat ≤ 2 ^ 63 ↔ log2ceil n < 64) := by
  unfold log2ceil
  split
  · rename_i h
    rw [h]
    decide
  · rename_i h
    have hn : n.toNat ≠ 1 := fun hc => h (UInt64.toNat_inj.mp hc)
    have hsub : (n - 1).toNat = n.toNat - 1 := by
      rw [UInt64.toNat_sub_of_le]
      · rfl
      · rw [UInt64.le_iff_toNat_le]
        exact hpos
    have hne : n.toNat - 1 ≠ 0 := by omega
    have hlt := n.toNat_lt
    rw [hsub]
    have hlog : Nat.log2 (n.toNat - 1) < 64 := (Nat.log2_lt hne).mpr (by omega)
    have heq : 64 - (63 - Nat.log2 (n.toNat - 1)) = Nat.log2 (n.toNat - 1) + 1 := by omega
    rw [heq]
    refine ⟨by omega, ?_, ?_⟩
    · have := Nat.lt_log2_self (n := n.toNat - 1)
      omega
    · have h63 := Nat.log2_lt (n := n.toNat - 1) (k := 63) hne
      omega

/-- `reserve` of at most `2 ^ 63` elements keeps those that are there. -/
theorem Holds.reserve (h : Holds P b ids xs) (g : Growth) {n : UInt64} (hn : n.toNat ≤ 2 ^ 63) :
    ∃ thrown b' ids', b.reserve g n = .ok (thrown, b') ∧ Holds P b' ids' xs := by
  unfold CircularBuffer.reserve
  split
  · rename_i hlt
    rw [UInt64.lt_iff_toNat_lt] at hlt
    obtain ⟨-, hle, hiff⟩ := log2ceil_spec (Nat.lt_of_le_of_lt (Nat.zero_le _) hlt)
    have hlog := hiff.mp hn
    rw [if_neg (Nat.not_le.mpr hlog)]
    have hshift : (1 <<< UInt64.ofNat (log2ceil n) : UInt64).toNat = 2 ^ log2ceil n := by
      rw [UInt64.toNat_shiftLeft, UInt64.toNat_ofNat', UInt64.toNat_one,
        Nat.mod_eq_of_lt (a := log2ceil n) (by omega), Nat.mod_eq_of_lt hlog, Nat.one_shiftLeft]
      exact Nat.mod_eq_of_lt (Nat.pow_lt_pow_right (by decide) hlog)
    have hfits := h.fits
    obtain ⟨thrown, b', ids', he, hh, -⟩ := h.expand g ⟨_, hshift⟩ (by rw [hshift]; omega)
    exact ⟨thrown, b', ids', he, hh⟩
  · exact ⟨false, b, ids, rfl, h⟩

/-- More elements than that are asked for with a shift by the width of the type. -/
theorem Holds.reserve_shift (h : Holds P b ids xs) (g : Growth) {n : UInt64}
    (hn : 2 ^ 63 < n.toNat) : b.reserve g n = .error .shiftTooFar := by
  have hcap := h.bound
  unfold CircularBuffer.reserve
  rw [if_pos, if_pos]
  · have hiff := (log2ceil_spec (n := n) (by omega)).2.2
    omega
  · rw [UInt64.lt_iff_toNat_lt]
    omega

end CircularBuffer

end Seastar
