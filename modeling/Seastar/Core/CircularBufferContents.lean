import Seastar.Core.CircularBuffer

/-!
What a `circular_buffer` holds. A block of slots is read from an index on: the object at
each place has an identity and a value, and every operation on a slot is described by
what it does at its place.
-/

namespace Seastar

open Lib

variable {T : Type}

namespace Block

variable {m : Block T} {l : Ledger} {base : UInt64} {i j : Nat}

/-- The number of slots is a power of two. -/
def Power (m : Block T) : Prop := ∃ k ≤ 63, m.size.toNat = 2 ^ k

/-- The slot at a place counted from `base`. -/
def view (m : Block T) (base : UInt64) (i : Nat) : Option (Element T) :=
  Ring.view m.size.toNat m.slots base i

/-- The object at a place. -/
def idAt (m : Block T) (base : UInt64) (i : Nat) : Option Nat := (m.view base i).map Element.id

/-- The value of the object at a place. -/
def valueAt (m : Block T) (base : UInt64) (i : Nat) : Option T :=
  (m.view base i).bind Element.value

/-- The mask that finds the slot of an index. -/
def place (m : Block T) (idx : UInt64) : UInt64 := idx &&& (m.size - 1)

/-- The block with another content at a place. -/
def put (base : UInt64) (i : Nat) (e : Option (Element T)) (m : Block T) : Block T :=
  { m with slots := Function.update m.slots (Ring.slot m.size.toNat (base + UInt64.ofNat i)) e }

@[simp] theorem put_size (e : Option (Element T)) : (m.put base i e).size = m.size := rfl

theorem Power.pos (hp : m.Power) : 0 < m.size.toNat := by
  obtain ⟨k, -, hk⟩ := hp
  rw [hk]
  exact Nat.two_pow_pos k

theorem Power.dvd (hp : m.Power) : m.size.toNat ∣ 2 ^ 64 := by
  obtain ⟨k, hk, hm⟩ := hp
  rw [hm]
  exact Nat.pow_dvd_pow 2 (by omega)

theorem Power.le (hp : m.Power) : m.size.toNat ≤ 2 ^ 63 := by
  obtain ⟨k, hk, hm⟩ := hp
  rw [hm]
  exact Nat.pow_le_pow_right (by decide) hk

theorem Power.congr {m' : Block T} (hp : m.Power) (h : m'.size = m.size) : m'.Power := by
  obtain ⟨k, hk, hm⟩ := hp
  exact ⟨k, hk, h ▸ hm⟩

theorem Power.place_toNat (hp : m.Power) (idx : UInt64) :
    (m.place idx).toNat = Ring.slot m.size.toNat idx := by
  obtain ⟨k, -, hm⟩ := hp
  exact Ring.and_sub_one hm idx

theorem Power.not_size_le (hp : m.Power) (idx : UInt64) : ¬ m.size ≤ m.place idx := by
  rw [UInt64.le_iff_toNat_le, hp.place_toNat]
  exact Nat.not_le.mpr (Ring.slot_lt hp.pos idx)

theorem Power.view_put (hp : m.Power) (hi : i < m.size.toNat) (hj : j < m.size.toNat)
    (e : Option (Element T)) :
    (m.put base j e).view base i = if i = j then e else m.view base i :=
  Ring.view_update hp.dvd hi hj e

theorem Power.idAt_put (hp : m.Power) (hi : i < m.size.toNat) (hj : j < m.size.toNat)
    (e : Option (Element T)) :
    (m.put base j e).idAt base i = if i = j then e.map Element.id else m.idAt base i := by
  rw [idAt, hp.view_put hi hj, idAt]
  split <;> rfl

theorem Power.valueAt_put (hp : m.Power) (hi : i < m.size.toNat) (hj : j < m.size.toNat)
    (e : Option (Element T)) :
    (m.put base j e).valueAt base i = if i = j then e.bind Element.value else m.valueAt base i := by
  rw [valueAt, hp.view_put hi hj, valueAt]
  split <;> rfl

theorem Power.get (hp : m.Power) {e : Element T} (he : m.view base i = some e) :
    m.get (m.place (base + UInt64.ofNat i)) = .ok e := by
  rw [Block.get, if_neg (hp.not_size_le _), hp.place_toNat]
  rw [view, Ring.view] at he
  rw [he]

theorem exists_of_idAt {id : Nat} (h : m.idAt base i = some id) :
    ∃ value, m.view base i = some ⟨id, value⟩ := by
  obtain ⟨e, he, rfl⟩ := Option.map_eq_some_iff.mp h
  exact ⟨e.value, he⟩

theorem valueAt_of_view {e : Element T} (he : m.view base i = some e) :
    m.valueAt base i = e.value := by
  rw [valueAt, he]
  rfl

theorem idAt_of_view {e : Element T} (he : m.view base i = some e) :
    m.idAt base i = some e.id := by
  rw [idAt, he]
  rfl

/-- An object is constructed at a place. -/
theorem Power.construct (hp : m.Power) (x : Option T) :
    m.construct (m.place (base + UInt64.ofNat i)) x l =
      .ok (m.put base i (some ⟨l.constructed, x⟩), { l with constructed := l.constructed + 1 }) := by
  rw [Block.construct, if_neg (hp.not_size_le _), hp.place_toNat]
  rfl

/-- The object at a place is destroyed. -/
theorem Power.destroy (hp : m.Power) {id : Nat} (h : m.idAt base i = some id) :
    m.destroy (m.place (base + UInt64.ofNat i)) l =
      .ok (m.put base i none, { l with destroyed := l.destroyed ++ [id] }) := by
  obtain ⟨value, he⟩ := exists_of_idAt h
  rw [Block.destroy, hp.get he, ok_bind, hp.place_toNat]
  rfl

/-- The value of one object is moved to another: the objects stay. -/
theorem Power.moveAssign (hp : m.Power) (hi : i < m.size.toNat) (hj : j < m.size.toNat)
    {a b : Nat} (ha : m.idAt base i = some a) (hb : m.idAt base j = some b) :
    ∃ m', m.moveAssign (m.place (base + UInt64.ofNat j)) (m.place (base + UInt64.ofNat i)) =
        .ok m' ∧ m'.size = m.size ∧
      (∀ p < m.size.toNat, m'.idAt base p = m.idAt base p) ∧
      ∀ p < m.size.toNat, m'.valueAt base p =
        if p = i then none else if p = j then m.valueAt base i else m.valueAt base p := by
  obtain ⟨x, hx⟩ := exists_of_idAt ha
  obtain ⟨y, hy⟩ := exists_of_idAt hb
  refine ⟨(m.put base j (some ⟨b, x⟩)).put base i (some ⟨a, none⟩), ?_, rfl, ?_, ?_⟩
  · rw [Block.moveAssign, hp.get hx, ok_bind, hp.get hy, ok_bind, hp.place_toNat, hp.place_toNat]
    rfl
  · intro p hlt
    have hp' : (m.put base j (some ⟨b, x⟩)).Power := hp.congr rfl
    rw [hp'.idAt_put hlt hi, hp.idAt_put hlt hj]
    split
    · rename_i h
      rw [h, ha]
      rfl
    · split
      · rename_i h
        rw [h, hb]
        rfl
      · rfl
  · intro p hlt
    have hp' : (m.put base j (some ⟨b, x⟩)).Power := hp.congr rfl
    rw [hp'.valueAt_put hlt hi, hp.valueAt_put hlt hj, valueAt_of_view hx]
    rfl

/-- The places counted from a later index. -/
theorem Power.idAt_add (hp : m.Power) (n i : Nat) : m.idAt (base + UInt64.ofNat n) i =
      if n + i < m.size.toNat then m.idAt base (n + i)
      else m.idAt base (n + i - m.size.toNat) := by
  unfold idAt view
  rw [Ring.view_add]
  split
  · rfl
  · rename_i h
    obtain ⟨j, hj⟩ := Nat.exists_eq_add_of_le (Nat.le_of_not_lt h)
    rw [hj, Ring.view_wrap hp.dvd, Nat.add_sub_cancel_left]

theorem valueAt_add (m : Block T) (base : UInt64) (n i : Nat) :
    m.valueAt (base + UInt64.ofNat n) i = m.valueAt base (n + i) := by
  unfold valueAt view
  rw [Ring.view_add]

theorem idAt_add (m : Block T) (base : UInt64) (n i : Nat) :
    m.idAt (base + UInt64.ofNat n) i = m.idAt base (n + i) := by
  unfold idAt view
  rw [Ring.view_add]

end Block

/-! ## Loops over indices -/

theorem add_ofNat_succ (base : UInt64) (i : Nat) :
    base + UInt64.ofNat i + 1 = base + UInt64.ofNat (i + 1) := by
  rw [UInt64.add_assoc, UInt64.ofNat_add]
  rfl

theorem add_ofNat_succ_sub (base : UInt64) (i : Nat) :
    base + UInt64.ofNat (i + 1) - 1 = base + UInt64.ofNat i := by
  rw [← add_ofNat_succ, UInt64.add_sub_cancel]

theorem toNat_add_ofNat {x : UInt64} {n : Nat} (h : x.toNat + n < 2 ^ 64) :
    (x + UInt64.ofNat n).toNat = x.toNat + n := by
  rw [UInt64.toNat_add, UInt64.toNat_ofNat', Nat.mod_eq_of_lt (a := n) (by omega),
    Nat.mod_eq_of_lt h]

theorem add_ofNat_zero (base : UInt64) : base + UInt64.ofNat 0 = base := UInt64.add_zero base

/-- The rule of the loop: what each of its steps keeps holds after it. -/
theorem forIndices_spec {σ : Type} {f : UInt64 → σ → Except Fault σ} {I : Nat → σ → Prop}
    {n : Nat} {base : UInt64} {s : σ} (h₀ : I 0 s)
    (hstep : ∀ k < n, ∀ s, I k s → ∃ s', f (base + UInt64.ofNat k) s = .ok s' ∧ I (k + 1) s') :
    ∃ s', forIndices f n base s = .ok s' ∧ I n s' := by
  induction n generalizing base s I with
  | zero => exact ⟨s, rfl, h₀⟩
  | succ n ih =>
    obtain ⟨t, ht, hI⟩ := hstep 0 (Nat.succ_pos n) s h₀
    rw [add_ofNat_zero] at ht
    have hrest : ∀ k < n, ∀ s, I (k + 1) s →
        ∃ s', f (base + 1 + UInt64.ofNat k) s = .ok s' ∧ I (k + 1 + 1) s' := by
      intro k hk s hs
      have hidx : base + 1 + UInt64.ofNat k = base + UInt64.ofNat (k + 1) := by
        rw [UInt64.add_assoc, UInt64.add_comm 1, ← UInt64.add_assoc, add_ofNat_succ]
      rw [hidx]
      exact hstep (k + 1) (by omega) s hs
    obtain ⟨s', hs', hI'⟩ := ih (I := fun k => I (k + 1)) hI hrest
    refine ⟨s', ?_, hI'⟩
    rw [forIndices, ht, ok_bind]
    exact hs'

namespace CircularBuffer

variable {b : CircularBuffer T} {ids : List Nat} {xs : List T} {P Q : Prop}

/-- The buffer holds `xs`, in the objects `ids`. When it is tidy, no other slot has an object, and
every object constructed has been destroyed once or is one of them. -/
structure Holds (tidy : Prop) (b : CircularBuffer T) (ids : List Nat) (xs : List T) : Prop where
  power : b.capacity = 0 ∨ b.storage.Power
  bound : b.capacity.toNat ≤ 2 ^ 62
  end_ : b.end_ = b.begin + UInt64.ofNat xs.length
  fits : xs.length ≤ b.capacity.toNat
  len : ids.length = xs.length
  idAt : ∀ i < xs.length, b.storage.idAt b.begin i = ids[i]?
  valueAt : ∀ i < xs.length, b.storage.valueAt b.begin i = xs[i]?
  rest : tidy → ∀ i < b.capacity.toNat, xs.length ≤ i → b.storage.idAt b.begin i = none
  once : tidy → (b.ledger.destroyed ++ ids).Perm (List.range b.ledger.constructed)

theorem Holds.initial : Holds P ({} : CircularBuffer T) [] [] where
  power := Or.inl rfl
  bound := Nat.zero_le _
  end_ := rfl
  fits := Nat.le_refl 0
  len := rfl
  idAt _ h := absurd h (Nat.not_lt_zero _)
  valueAt _ h := absurd h (Nat.not_lt_zero _)
  rest _ _ h := absurd h (Nat.not_lt_zero _)
  once _ := List.Perm.nil

theorem Holds.mono (h : Holds P b ids xs) (hPQ : Q → P) : Holds Q b ids xs :=
  { h with rest := fun hq => h.rest (hPQ hq), once := fun hq => h.once (hPQ hq) }

theorem Holds.power_of_lt (h : Holds P b ids xs) {n : Nat} (hn : n < b.capacity.toNat) :
    b.storage.Power := by
  apply h.power.resolve_left
  intro h0
  rw [h0] at hn
  exact absurd hn (Nat.not_lt_zero n)

theorem Holds.length_le (h : Holds P b ids xs) : xs.length ≤ 2 ^ 62 :=
  Nat.le_trans h.fits h.bound

theorem toNat_ofNat_of_le {n : Nat} (h : n ≤ 2 ^ 63) : (UInt64.ofNat n).toNat = n := by
  rw [UInt64.toNat_ofNat', Nat.mod_eq_of_lt (by omega)]

theorem Holds.size_eq (h : Holds P b ids xs) : b.size = UInt64.ofNat xs.length := by
  rw [size, h.end_, UInt64.add_comm, UInt64.add_sub_cancel]

/-- `size` is the number of elements. -/
theorem Holds.size_toNat (h : Holds P b ids xs) : b.size.toNat = xs.length := by
  have hle := h.length_le
  rw [h.size_eq, toNat_ofNat_of_le (by omega)]

theorem Holds.empty_iff (h : Holds P b ids xs) : b.empty = true ↔ xs = [] := by
  have hsub : b.empty = true ↔ b.size.toNat = 0 := by
    rw [empty, beq_iff_eq, size, ← UInt64.toNat_inj]
    have := UInt64.toNat_lt b.end_
    have := UInt64.toNat_lt b.begin
    rw [UInt64.toNat_sub]
    omega
  rw [hsub, h.size_toNat, List.length_eq_zero_iff]

/-- What `operator[]`, `front`, `back` and the iterators read. -/
theorem Holds.deref (h : Holds P b ids xs) {i : Nat} (hi : i < xs.length) :
    b.deref (b.begin + UInt64.ofNat i) = .ok (xs.get ⟨i, hi⟩) := by
  have hp := h.power_of_lt (Nat.lt_of_lt_of_le hi h.fits)
  have hv := h.valueAt i hi
  rw [List.getElem?_eq_getElem hi, Block.valueAt] at hv
  obtain ⟨e, he, hx⟩ := Option.bind_eq_some_iff.mp hv
  have hget : b.storage.get (b.mask (b.begin + UInt64.ofNat i)) = .ok e := hp.get he
  rw [CircularBuffer.deref, hget, ok_bind, hx]
  rfl

/-- An iterator on its way from `begin` to `end` meets the elements in order. -/
theorem Holds.iterate (h : Holds P b ids xs) : b.iterate = .ok xs := by
  unfold CircularBuffer.iterate
  rw [h.size_toNat]
  obtain ⟨ys, hys, hI⟩ := forIndices_spec (I := fun k ys => ys = xs.take k)
    (f := fun idx xs => (b.deref idx).map fun x => xs ++ [x]) (n := xs.length)
    (s := ([] : List T)) rfl (by
      rintro k hk ys rfl
      refine ⟨_, by rw [h.deref hk]; rfl, ?_⟩
      rw [List.take_succ_eq_append_getElem hk]
      rfl)
  rw [hys, hI, List.take_length]

/-! ## Moving and destroying objects of the buffer -/

theorem moveForward_spec {b : CircularBuffer T} (hp : b.storage.Power) {n d r : Nat}
    (hlt : d < r) (hfit : r + n ≤ b.capacity.toNat)
    (hlive : ∀ p, d ≤ p → p < r + n → (b.storage.idAt b.begin p).isSome) :
    ∃ m, moveForward n (b.begin + UInt64.ofNat r) (b.begin + UInt64.ofNat d) b =
        .ok (b.begin + UInt64.ofNat (d + n), { b with storage := m }) ∧
      m.size = b.storage.size ∧
      (∀ p < b.capacity.toNat, m.idAt b.begin p = b.storage.idAt b.begin p) ∧
      ∀ p < d + n, m.valueAt b.begin p =
        if d ≤ p then b.storage.valueAt b.begin (p + (r - d))
        else b.storage.valueAt b.begin p := by
  induction n generalizing b d r with
  | zero =>
    refine ⟨b.storage, rfl, rfl, fun _ _ => rfl, fun p hp => ?_⟩
    rw [if_neg (by omega)]
  | succ n ih =>
    obtain ⟨x, hx⟩ := Option.isSome_iff_exists.mp (hlive r (Nat.le_of_lt hlt) (by omega))
    obtain ⟨y, hy⟩ := Option.isSome_iff_exists.mp (hlive d (Nat.le_refl d) (by omega))
    obtain ⟨m₁, hm₁, hsize₁, hid₁, hval₁⟩ :=
      hp.moveAssign (i := r) (j := d) (show _ < b.capacity.toNat by omega)
        (show _ < b.capacity.toNat by omega) hx hy
    have hcap : b.capacity = m₁.size := hsize₁.symm
    obtain ⟨m, hm, hsize, hid, hval⟩ := ih (b := { b with storage := m₁ }) (d := d + 1)
      (r := r + 1) (hp.congr hsize₁) (by omega) (by
        show _ ≤ m₁.size.toNat
        rw [← hcap]
        omega) (by
        intro p h₁ h₂
        show (m₁.idAt b.begin p).isSome
        rw [hid₁ p (show p < b.capacity.toNat by omega)]
        exact hlive p (by omega) (by omega))
    refine ⟨m, ?_, hsize.trans hsize₁, ?_, ?_⟩
    · have hm₁' : b.storage.moveAssign (b.mask (b.begin + UInt64.ofNat d))
        (b.mask (b.begin + UInt64.ofNat r)) = .ok m₁ := hm₁
      rw [moveForward, hm₁', ok_bind, add_ofNat_succ, add_ofNat_succ, hm]
      rw [Nat.add_right_comm]
      rfl
    · intro p hlt
      have hlt' : p < m₁.size.toNat := by rwa [← hcap]
      rw [hid p hlt', ← hid₁ p hlt]
    · intro p hlt'
      have hrest := hval p (by omega)
      rw [hrest]
      show (if d + 1 ≤ p then m₁.valueAt b.begin (p + (r + 1 - (d + 1)))
        else m₁.valueAt b.begin p) = _
      split
      · rw [hval₁ _ (show _ < b.capacity.toNat by omega), if_neg (by omega), if_neg (by omega),
          if_pos (by omega), Nat.add_sub_add_right]
      · rw [hval₁ _ (show _ < b.capacity.toNat by omega), if_neg (by omega)]
        split
        · rename_i h
          rw [h, if_pos (Nat.le_refl d), Nat.add_sub_cancel' (Nat.le_of_lt hlt)]
        · rw [if_neg (by omega)]

theorem moveBackward_spec {b : CircularBuffer T} (hp : b.storage.Power) {n d : Nat}
    (hd : 0 < d) (hfit : n + d ≤ b.capacity.toNat)
    (hlive : ∀ p < n + d, (b.storage.idAt b.begin p).isSome) :
    ∃ m, moveBackward n (b.begin + UInt64.ofNat n) (b.begin + UInt64.ofNat (n + d)) b =
        .ok (b.begin + UInt64.ofNat d, { b with storage := m }) ∧
      m.size = b.storage.size ∧
      (∀ p < b.capacity.toNat, m.idAt b.begin p = b.storage.idAt b.begin p) ∧
      ∀ p < b.capacity.toNat, d ≤ p → m.valueAt b.begin p =
        if p < n + d then b.storage.valueAt b.begin (p - d) else b.storage.valueAt b.begin p := by
  induction n generalizing b with
  | zero =>
    refine ⟨b.storage, ?_, rfl, fun _ _ => rfl, fun p _ hp => ?_⟩
    · rw [Nat.zero_add]
      rfl
    · rw [if_neg (by omega)]
  | succ n ih =>
    obtain ⟨x, hx⟩ := Option.isSome_iff_exists.mp (hlive n (by omega))
    obtain ⟨y, hy⟩ := Option.isSome_iff_exists.mp (hlive (n + d) (by omega))
    obtain ⟨m₁, hm₁, hsize₁, hid₁, hval₁⟩ :=
      hp.moveAssign (i := n) (j := n + d) (show _ < b.capacity.toNat by omega)
        (show _ < b.capacity.toNat by omega) hx hy
    have hcap : b.capacity = m₁.size := hsize₁.symm
    obtain ⟨m, hm, hsize, hid, hval⟩ := ih (b := { b with storage := m₁ }) (hp.congr hsize₁) (by
        show _ ≤ m₁.size.toNat
        rw [← hcap]
        omega) (by
        intro p h
        show (m₁.idAt b.begin p).isSome
        rw [hid₁ p (show p < b.capacity.toNat by omega)]
        exact hlive p (by omega))
    refine ⟨m, ?_, hsize.trans hsize₁, ?_, ?_⟩
    · have hm₁' : b.storage.moveAssign (b.mask (b.begin + UInt64.ofNat (n + d)))
        (b.mask (b.begin + UInt64.ofNat n)) = .ok m₁ := hm₁
      rw [moveBackward, Nat.add_right_comm, add_ofNat_succ_sub, add_ofNat_succ_sub, hm₁', ok_bind]
      exact hm
    · intro p hlt
      have hlt' : p < m₁.size.toNat := by rwa [← hcap]
      rw [hid p hlt', ← hid₁ p hlt]
    · intro p hlt hdp
      have hlt' : p < m₁.size.toNat := by rwa [← hcap]
      have hrest := hval p hlt' hdp
      rw [hrest]
      show (if p < n + d then m₁.valueAt b.begin (p - d) else m₁.valueAt b.begin p) = _
      split
      · rw [hval₁ _ (show _ < b.capacity.toNat by omega), if_neg (by omega), if_neg (by omega),
          if_pos (by omega)]
      · rw [hval₁ _ (show _ < b.capacity.toNat by omega), if_neg (by omega)]
        split
        · rename_i h
          rw [h, if_pos (by omega), Nat.add_sub_cancel]
        · rw [if_neg (by omega)]

theorem destroyAt_spec {b : CircularBuffer T} (hp : b.storage.Power) {i id : Nat}
    (h : b.storage.idAt b.begin i = some id) :
    b.destroyAt (b.begin + UInt64.ofNat i) = .ok { b with
      storage := b.storage.put b.begin i none
      ledger := { b.ledger with destroyed := b.ledger.destroyed ++ [id] } } := by
  have hd : b.storage.destroy (b.mask (b.begin + UInt64.ofNat i)) b.ledger = _ := hp.destroy h
  rw [destroyAt, hd]
  rfl

/-- The loop `while (i < e)` destroys the objects of its range when the indices of the range do
not wrap. -/
theorem destroyWhile_spec {b : CircularBuffer T} (hp : b.storage.Power) {o : Nat}
    {l : List Nat} (hfit : o + l.length ≤ b.capacity.toNat)
    (hnowrap : (b.begin + UInt64.ofNat o).toNat + l.length < 2 ^ 64)
    (hlive : ∀ k < l.length, b.storage.idAt b.begin (o + k) = l[k]?) :
    ∃ m, destroyWhile l.length (b.begin + UInt64.ofNat o)
        (b.begin + UInt64.ofNat (o + l.length)) b = .ok { b with
          storage := m
          ledger := { b.ledger with destroyed := b.ledger.destroyed ++ l } } ∧
      m.size = b.storage.size ∧
      (∀ p < b.capacity.toNat, m.idAt b.begin p =
        if o ≤ p ∧ p < o + l.length then none else b.storage.idAt b.begin p) ∧
      ∀ p < b.capacity.toNat, (p < o ∨ o + l.length ≤ p) →
        m.valueAt b.begin p = b.storage.valueAt b.begin p := by
  induction l generalizing b o with
  | nil =>
    refine ⟨b.storage, ?_, rfl, ?_, fun _ _ _ => rfl⟩
    · rw [List.append_nil]
      rfl
    · intro p _
      rw [if_neg]
      simp only [List.length_nil]
      omega
  | cons d l ih =>
    rw [List.length_cons] at hfit hnowrap
    have hd : b.storage.idAt b.begin o = some d := hlive 0 (Nat.succ_pos _)
    have ho : o < b.capacity.toNat := by omega
    have hdest := destroyAt_spec hp hd
    have hsucc : (b.begin + UInt64.ofNat (o + 1)).toNat =
        (b.begin + UInt64.ofNat o).toNat + 1 := by
      rw [← add_ofNat_succ]
      exact toNat_add_ofNat (n := 1) (by omega)
    obtain ⟨m, hm, hsize, hid, hval⟩ := ih (b := { b with
        storage := b.storage.put b.begin o none
        ledger := { b.ledger with destroyed := b.ledger.destroyed ++ [d] } }) (o := o + 1)
      (hp.congr rfl) (by
        show o + 1 + l.length ≤ b.capacity.toNat
        omega) (by
        show (b.begin + UInt64.ofNat (o + 1)).toNat + l.length < _
        omega) (by
        intro k hk
        show (b.storage.put b.begin o none).idAt b.begin (o + 1 + k) = _
        rw [hp.idAt_put (show _ < b.capacity.toNat by omega) ho, if_neg (by omega)]
        have hk' := hlive (k + 1) (Nat.succ_lt_succ hk)
        rw [List.getElem?_cons_succ] at hk'
        rw [← hk']
        congr 1
        omega)
    refine ⟨m, ?_, hsize, ?_, ?_⟩
    · have hlt : b.begin + UInt64.ofNat o < b.begin + UInt64.ofNat (o + (l.length + 1)) := by
        rw [UInt64.lt_iff_toNat_lt, UInt64.ofNat_add o, ← UInt64.add_assoc,
          toNat_add_ofNat hnowrap]
        omega
      rw [List.length_cons, destroyWhile, if_pos hlt, hdest, ok_bind, add_ofNat_succ,
        ← Nat.add_assoc o, Nat.add_right_comm o, hm, List.append_assoc]
      rfl
    · intro p hp'
      rw [hid p hp', List.length_cons]
      show (if o + 1 ≤ p ∧ p < o + 1 + l.length then none
        else (b.storage.put b.begin o none).idAt b.begin p) = _
      rw [hp.idAt_put hp' ho]
      by_cases hpl : p = o
      · rw [if_neg (by omega), if_pos hpl, if_pos (by omega)]
        rfl
      · rw [if_neg hpl]
        by_cases hin : o + 1 ≤ p ∧ p < o + 1 + l.length
        · rw [if_pos hin, if_pos (by omega)]
        · rw [if_neg hin, if_neg (by omega)]
    · intro p hp' hout
      rw [List.length_cons] at hout
      rw [hval p hp' (by omega)]
      show (b.storage.put b.begin o none).valueAt b.begin p = _
      rw [hp.valueAt_put hp' ho, if_neg (by omega)]

/-- When the indices of its range wrap, the loop destroys nothing. -/
theorem destroyWhile_wrapped {i e : UInt64} (h : e ≤ i) (fuel : Nat) (b : CircularBuffer T) :
    destroyWhile fuel i e b = .ok b := by
  cases fuel with
  | zero => rfl
  | succ fuel =>
    rw [destroyWhile, if_neg]
    rw [UInt64.lt_iff_toNat_lt]
    rw [UInt64.le_iff_toNat_le] at h
    omega

end CircularBuffer

end Seastar
