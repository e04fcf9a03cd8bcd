import Seastar.Core.CircularBufferContents

/-!
`circular_buffer_fixed_capacity` of `core/circular_buffer_fixed_capacity.hh`. Pushing,
popping and `clear` find the slot of an index by its remainder; the move constructor and
the destructor take the index itself for the slot, and stay inside the storage only when
the indices have neither passed the capacity nor gone below zero.
-/

namespace Seastar

open Lib

/-- `class circular_buffer_fixed_capacity`. -/
structure CircularBufferFixedCapacity (T : Type) (capacity : UInt64) where
  begin : UInt64 := 0
  end_ : UInt64 := 0
  storage : Block T := { size := capacity }
  ledger : Ledger := {}

namespace CircularBufferFixedCapacity

variable {T : Type} {capacity : UInt64}

/-- `mask`. -/
def mask (capacity idx : UInt64) : UInt64 := idx % capacity

/-- `size`. -/
def size (b : CircularBufferFixedCapacity T capacity) : UInt64 := b.end_ - b.begin

/-- `empty`. -/
def empty (b : CircularBufferFixedCapacity T capacity) : Bool := b.begin == b.end_

/-- `emplace_front`, and `push_front`. -/
def emplaceFront (x : T) (b : CircularBufferFixedCapacity T capacity) :
    Except Fault (CircularBufferFixedCapacity T capacity) := do
  let (storage, ledger) ← b.storage.construct (mask capacity (b.begin - 1)) (some x) b.ledger
  .ok { b with storage, ledger, begin := b.begin - 1 }

/-- `emplace_back`, and `push_back`. -/
def emplaceBack (x : T) (b : CircularBufferFixedCapacity T capacity) :
    Except Fault (CircularBufferFixedCapacity T capacity) := do
  let (storage, ledger) ← b.storage.construct (mask capacity b.end_) (some x) b.ledger
  .ok { b with storage, ledger, end_ := b.end_ + 1 }

/-- `pop_front`. -/
def popFront (b : CircularBufferFixedCapacity T capacity) :
    Except Fault (CircularBufferFixedCapacity T capacity) := do
  let (storage, ledger) ← b.storage.destroy (mask capacity b.begin) b.ledger
  .ok { b with storage, ledger, begin := b.begin + 1 }

/-- `pop_back`. -/
def popBack (b : CircularBufferFixedCapacity T capacity) :
    Except Fault (CircularBufferFixedCapacity T capacity) := do
  let (storage, ledger) ← b.storage.destroy (mask capacity (b.end_ - 1)) b.ledger
  .ok { b with storage, ledger, end_ := b.end_ - 1 }

/-- `operator[]`. -/
def at_ (b : CircularBufferFixedCapacity T capacity) (idx : UInt64) : Except Fault T := do
  let e ← b.storage.get (mask capacity (b.begin + idx))
  match e.value with
  | some x => .ok x
  | none => .error .noObject

/-- The loops from `_begin` to `_end`. -/
def loop {σ : Type} (b : CircularBufferFixedCapacity T capacity)
    (f : UInt64 → σ → Except Fault σ) (s : σ) : Except Fault σ :=
  forIndices f b.size.toNat b.begin s

/-- `clear`. -/
def clear (b : CircularBufferFixedCapacity T capacity) :
    Except Fault (CircularBufferFixedCapacity T capacity) := do
  let (storage, ledger) ←
    b.loop (fun i s => s.1.destroy (mask capacity i) s.2) (b.storage, b.ledger)
  .ok { begin := 0, end_ := 0, storage, ledger }

/-- `~circular_buffer_fixed_capacity`: the index is the slot. -/
def destruct (b : CircularBufferFixedCapacity T capacity) : Except Fault Unit := do
  let _ ← b.loop (fun i s => s.1.destroy i s.2) (b.storage, b.ledger)
  .ok ()

/-- One turn of the loop of the move constructor: the index is the slot in both storages. -/
def moveSlot (i : UInt64) (s : Block T × Block T × Ledger) :
    Except Fault (Block T × Block T × Ledger) := do
  let (target, source, ledger) := s
  let e ← source.get i
  let (target, ledger) ← target.construct i e.value ledger
  let slots := Function.update source.slots i.toNat (some { e with value := none })
  .ok (target, { source with slots }, ledger)

/-- The move constructor; also what is left of the other buffer. -/
def moveConstruct (x : CircularBufferFixedCapacity T capacity) :
    Except Fault (CircularBufferFixedCapacity T capacity ×
      CircularBufferFixedCapacity T capacity) := do
  let (target, source, ledger) ← x.loop moveSlot ({ size := capacity }, x.storage, {})
  .ok ({ begin := x.begin, end_ := x.end_, storage := target, ledger },
    { x with begin := 0, end_ := 0, storage := source })

/-- The move assignment of another buffer. -/
def moveAssign (b x : CircularBufferFixedCapacity T capacity) :
    Except Fault (CircularBufferFixedCapacity T capacity ×
      CircularBufferFixedCapacity T capacity) := do
  let _ ← b.destruct
  x.moveConstruct

/-! ## Runs -/

/-- Pushing and popping at both ends. -/
inductive Action (T : Type)
  | pushFront (x : T)
  | pushBack (x : T)
  | popFront
  | popBack
  deriving DecidableEq, Repr

/-- One action on the buffer. -/
def operate (b : CircularBufferFixedCapacity T capacity) : Action T →
    Except Fault (CircularBufferFixedCapacity T capacity)
  | .pushFront x => b.emplaceFront x
  | .pushBack x => b.emplaceBack x
  | .popFront => b.popFront
  | .popBack => b.popBack

/-- The action on a list. -/
def onList (xs : List T) : Action T → List T
  | .pushFront x => x :: xs
  | .pushBack x => xs ++ [x]
  | .popFront => xs.tail
  | .popBack => xs.dropLast

/-- The buffer and the list side by side. -/
def step (s : CircularBufferFixedCapacity T capacity × List T) (a : Action T) :
    Except Fault (CircularBufferFixedCapacity T capacity × List T) := do
  let b ← s.1.operate a
  .ok (b, onList s.2 a)

/-- The buffer and the list after the actions, oldest first. -/
def run : CircularBufferFixedCapacity T capacity × List T → List (Action T) →
    Except Fault (CircularBufferFixedCapacity T capacity × List T) := Run.run step

/-- The capacity is not exceeded, and nothing is popped from an empty buffer. -/
def Valid (s : CircularBufferFixedCapacity T capacity × List T) : Action T → Prop
  | .pushFront _ => s.1.size < capacity
  | .pushBack _ => s.1.size < capacity
  | .popFront => s.1.empty = false
  | .popBack => s.1.empty = false

instance (s : CircularBufferFixedCapacity T capacity × List T) (a : Action T) :
    Decidable (Valid s a) := by
  cases a <;> unfold Valid <;> infer_instance

/-- What ends the life of a buffer or its contents. -/
inductive Ending
  | moveConstruct
  | moveAssign
  | clear
  | destruct
  deriving DecidableEq, Repr

/-- The end of the buffer `x`; when it is assigned, the other buffer is `b`. The result is the
buffer that has the contents now, if there is one. -/
def finish (b x : CircularBufferFixedCapacity T capacity) : Ending →
    Except Fault (Option (CircularBufferFixedCapacity T capacity))
  | .moveConstruct => x.moveConstruct.map fun r => some r.1
  | .moveAssign => (b.moveAssign x).map fun r => some r.1
  | .clear => x.clear.map some
  | .destruct => x.destruct.map fun _ => none

/-- The elements that are left then. -/
def finished (ys : List T) : Ending → Option (List T)
  | .moveConstruct => some ys
  | .moveAssign => some ys
  | .clear => some []
  | .destruct => none

/-- The buffer is read as the list. -/
structure ReadsAs (b : CircularBufferFixedCapacity T capacity) (xs : List T) : Prop where
  size : b.size.toNat = xs.length
  at_ : ∀ i (hi : i < xs.length), b.at_ (UInt64.ofNat i) = .ok (xs.get ⟨i, hi⟩)

/-- The indices from `_begin` to `_end` are slots. -/
def InStorage (b : CircularBufferFixedCapacity T capacity) : Prop :=
  b.begin = b.end_ ∨ (b.begin < b.end_ ∧ b.end_ ≤ capacity)

/-- The ending takes only indices for slots that are slots. -/
def Inside (b x : CircularBufferFixedCapacity T capacity) : Ending → Prop
  | .moveConstruct => InStorage x
  | .moveAssign => InStorage b ∧ InStorage x
  | .clear => True
  | .destruct => InStorage x

/-! ## The contents -/

/-- The buffer holds the list. -/
structure Holds (b : CircularBufferFixedCapacity T capacity) (xs : List T) : Prop where
  power : ∃ k ≤ 63, capacity.toNat = 2 ^ k
  size : b.storage.size = capacity
  end_ : b.end_ = b.begin + UInt64.ofNat xs.length
  fits : xs.length ≤ capacity.toNat
  valueAt : ∀ i < xs.length, b.storage.valueAt b.begin i = xs[i]?

variable {b : CircularBufferFixedCapacity T capacity} {xs ys : List T} {x : T}

theorem Holds.initial (hc : ∃ k ≤ 63, capacity.toNat = 2 ^ k) :
    Holds ({} : CircularBufferFixedCapacity T capacity) [] where
  power := hc
  size := rfl
  end_ := rfl
  fits := Nat.zero_le _
  valueAt _ h := absurd h (Nat.not_lt_zero _)

theorem Holds.storage (h : Holds b xs) : b.storage.Power := by
  rw [Block.Power, h.size]
  exact h.power

theorem Holds.length_le (h : Holds b xs) : xs.length ≤ 2 ^ 63 := by
  have hle := h.storage.le
  rw [h.size] at hle
  exact Nat.le_trans h.fits hle

theorem Holds.capacity_eq (h : Holds b xs) : b.storage.size.toNat = capacity.toNat := by
  rw [h.size]

/-- The remainder is the slot that the mask finds. -/
theorem mask_eq {m : Block T} (hp : m.Power) (hm : m.size = capacity) (idx : UInt64) :
    mask capacity idx = m.place idx := by
  apply UInt64.toNat_inj.mp
  rw [hp.place_toNat, mask, UInt64.toNat_mod, Ring.slot, hm]

theorem Holds.size_eq (h : Holds b xs) : b.size = UInt64.ofNat xs.length := by
  rw [CircularBufferFixedCapacity.size, h.end_, UInt64.add_comm, UInt64.add_sub_cancel]

theorem Holds.size_toNat (h : Holds b xs) : b.size.toNat = xs.length := by
  have hle := h.length_le
  rw [h.size_eq, CircularBuffer.toNat_ofNat_of_le hle]

theorem Holds.empty_iff (h : Holds b xs) : b.empty = true ↔ xs = [] := by
  have hsub : b.empty = true ↔ b.size.toNat = 0 := by
    rw [empty, beq_iff_eq, CircularBufferFixedCapacity.size, ← UInt64.toNat_inj]
    have := UInt64.toNat_lt b.end_
    have := UInt64.toNat_lt b.begin
    rw [UInt64.toNat_sub]
    omega
  rw [hsub, h.size_toNat, List.length_eq_zero_iff]

theorem Holds.exists_view (h : Holds b xs) {i : Nat} (hi : i < xs.length) :
    ∃ id, b.storage.view b.begin i = some ⟨id, some (xs.get ⟨i, hi⟩)⟩ := by
  have hv := h.valueAt i hi
  rw [List.getElem?_eq_getElem hi] at hv
  obtain ⟨e, he, hx⟩ := Option.bind_eq_some_iff.mp hv
  refine ⟨e.id, ?_⟩
  rw [he]
  exact congrArg some (by rw [List.get_eq_getElem, ← hx])

theorem Holds.readsAs (h : Holds b xs) : ReadsAs b xs where
  size := h.size_toNat
  at_ i hi := by
    obtain ⟨id, hv⟩ := h.exists_view hi
    rw [CircularBufferFixedCapacity.at_, mask_eq h.storage h.size, h.storage.get hv, ok_bind]

/-! ## Both ends -/

/-- `push_front`, unless the buffer is full. -/
theorem Holds.emplaceFront (h : Holds b xs) (hroom : xs.length < capacity.toNat) (x : T) :
    ∃ b', b.emplaceFront x = .ok b' ∧ Holds b' (x :: xs) := by
  have hp := h.storage
  have hcap := h.capacity_eq
  have hbegin : b.begin = b.begin - 1 + UInt64.ofNat 1 := (UInt64.sub_add_cancel _ _).symm
  have hval : ∀ i, b.storage.valueAt (b.begin - 1) (1 + i) = b.storage.valueAt b.begin i := by
    intro i
    rw [← Block.valueAt_add, ← hbegin]
  have hcon : b.storage.construct (b.storage.place (b.begin - 1 + UInt64.ofNat 0)) (some x)
    b.ledger = _ := hp.construct (some x)
  rw [add_ofNat_zero, ← mask_eq hp h.size] at hcon
  refine ⟨_, by rw [CircularBufferFixedCapacity.emplaceFront, hcon]; rfl, ?_⟩
  constructor
  · exact h.power
  · exact h.size
  · show b.end_ = b.begin - 1 + UInt64.ofNat (xs.length + 1)
    rw [h.end_, Nat.add_comm, UInt64.ofNat_add, ← UInt64.add_assoc, ← hbegin]
  · exact hroom
  · intro i hi
    rw [List.length_cons] at hi
    show (b.storage.put (b.begin - 1) 0 _).valueAt (b.begin - 1) i = _
    rw [hp.valueAt_put (by omega) (by omega)]
    cases i with
    | zero => rfl
    | succ i =>
      rw [if_neg (Nat.succ_ne_zero i), Nat.add_comm, hval, h.valueAt i (by omega), Nat.add_comm,
        List.getElem?_cons_succ]

/-- `push_back`, unless the buffer is full. -/
theorem Holds.emplaceBack (h : Holds b xs) (hroom : xs.length < capacity.toNat) (x : T) :
    ∃ b', b.emplaceBack x = .ok b' ∧ Holds b' (xs ++ [x]) := by
  have hp := h.storage
  have hcap := h.capacity_eq
  have hcon : b.storage.construct (b.storage.place (b.begin + UInt64.ofNat xs.length)) (some x)
    b.ledger = _ := hp.construct (some x)
  rw [← h.end_, ← mask_eq hp h.size] at hcon
  refine ⟨_, by rw [CircularBufferFixedCapacity.emplaceBack, hcon]; rfl, ?_⟩
  constructor
  · exact h.power
  · exact h.size
  · show b.end_ + 1 = b.begin + UInt64.ofNat (xs ++ [x]).length
    rw [h.end_, add_ofNat_succ, List.length_append]
    rfl
  · rw [List.length_append]
    exact hroom
  · intro i hi
    rw [List.length_append, List.length_singleton] at hi
    show (b.storage.put b.begin xs.length _).valueAt b.begin i = _
    rw [hp.valueAt_put (by omega) (by omega)]
    split
    · rename_i hix
      rw [hix]
      simp
    · rw [h.valueAt i (by omega), List.getElem?_append_left (by omega)]

/-- `pop_front`. -/
theorem Holds.popFront (h : Holds b (x :: xs)) : ∃ b', b.popFront = .ok b' ∧ Holds b' xs := by
  have hp := h.storage
  have hcap := h.capacity_eq
  have hfits := h.fits
  rw [List.length_cons] at hfits
  obtain ⟨id, hv⟩ := h.exists_view (i := 0) (Nat.succ_pos _)
  have hdes := hp.destroy (l := b.ledger) (Block.idAt_of_view hv)
  rw [add_ofNat_zero, ← mask_eq hp h.size] at hdes
  refine ⟨_, by rw [CircularBufferFixedCapacity.popFront, hdes]; rfl, ?_⟩
  have hone : b.begin + 1 = b.begin + UInt64.ofNat 1 := rfl
  constructor
  · exact h.power
  · exact h.size
  · show b.end_ = b.begin + 1 + UInt64.ofNat xs.length
    rw [h.end_, List.length_cons, hone, UInt64.add_assoc, ← UInt64.ofNat_add, Nat.add_comm]
  · omega
  · intro i hi
    show (b.storage.put b.begin 0 none).valueAt (b.begin + 1) i = _
    rw [hone, Block.valueAt_add, hp.valueAt_put (by omega) (by omega), if_neg (by omega),
      h.valueAt (1 + i) (by rw [List.length_cons]; omega), Nat.add_comm, List.getElem?_cons_succ]

/-- `pop_back`. -/
theorem Holds.popBack (h : Holds b (xs ++ [x])) : ∃ b', b.popBack = .ok b' ∧ Holds b' xs := by
  have hp := h.storage
  have hcap := h.capacity_eq
  have hfits := h.fits
  rw [List.length_append, List.length_singleton] at hfits
  obtain ⟨id, hv⟩ := h.exists_view (i := xs.length) (by simp)
  have hend : b.end_ - 1 = b.begin + UInt64.ofNat xs.length := by
    rw [h.end_, List.length_append]
    exact add_ofNat_succ_sub _ _
  have hdes := hp.destroy (l := b.ledger) (Block.idAt_of_view hv)
  rw [← hend, ← mask_eq hp h.size] at hdes
  refine ⟨_, by rw [CircularBufferFixedCapacity.popBack, hdes]; rfl, ?_⟩
  constructor
  · exact h.power
  · exact h.size
  · exact hend
  · omega
  · intro i hi
    show (b.storage.put b.begin xs.length none).valueAt b.begin i = _
    rw [hp.valueAt_put (by omega) (by omega), if_neg (by omega),
      h.valueAt i (by rw [List.length_append]; omega), List.getElem?_append_left hi]

/-- Pushing and popping stay inside the storage. -/
theorem Holds.step (h : Holds b xs) {a : Action T} (hv : Valid (b, xs) a) :
    ∃ s, step (b, xs) a = .ok s ∧ Holds s.1 s.2 := by
  have hroom : b.size < capacity → xs.length < capacity.toNat := by
    intro hlt
    rwa [UInt64.lt_iff_toNat_lt, h.size_toNat] at hlt
  have hne : b.empty = false → xs ≠ [] := by
    intro hf hc
    rw [h.empty_iff.mpr hc] at hf
    exact Bool.false_ne_true hf.symm
  cases a with
  | pushFront x =>
    obtain ⟨b', he, hh⟩ := h.emplaceFront (hroom hv) x
    exact ⟨_, by rw [CircularBufferFixedCapacity.step, operate, he]; rfl, hh⟩
  | pushBack x =>
    obtain ⟨b', he, hh⟩ := h.emplaceBack (hroom hv) x
    exact ⟨_, by rw [CircularBufferFixedCapacity.step, operate, he]; rfl, hh⟩
  | popFront =>
    obtain ⟨x, ys, rfl⟩ := List.exists_cons_of_ne_nil (hne hv)
    obtain ⟨b', he, hh⟩ := h.popFront
    exact ⟨_, by rw [CircularBufferFixedCapacity.step, operate, he]; rfl, hh⟩
  | popBack =>
    have hxs := hne hv
    rw [← List.dropLast_append_getLast hxs] at h
    obtain ⟨b', he, hh⟩ := h.popBack
    exact ⟨_, by rw [CircularBufferFixedCapacity.step, operate, he]; rfl, hh⟩

theorem Holds.run (h : Holds b xs) {as : List (Action T)}
    (hv : Run.Along CircularBufferFixedCapacity.step Valid (b, xs) as) :
    ∃ b' ys, run (b, xs) as = .ok (b', ys) ∧ Holds b' ys := by
  induction as generalizing b xs with
  | nil => exact ⟨b, xs, rfl, h⟩
  | cons a as ih =>
    obtain ⟨s, hs, hh⟩ := h.step hv.1
    obtain ⟨b', ys, hr, hh'⟩ := ih hh (hv.2 s hs)
    exact ⟨b', ys, Run.run_cons_ok.mpr ⟨s, hs, hr⟩, hh'⟩

/-! ## Endings -/

/-- A loop all of whose steps are taken at indices below `c`. -/
theorem forIndices_lt {σ : Type} {f : UInt64 → σ → Except Fault σ} {J : σ → Prop} {c base : UInt64}
    (hstep : ∀ i s s', J s → f i s = .ok s' → i < c ∧ J s') {n : Nat} {s s' : σ} (hJ : J s)
    (h : forIndices f n base s = .ok s') : ∀ k < n, base + UInt64.ofNat k < c := by
  induction n generalizing base s with
  | zero => exact fun k hk => absurd hk (Nat.not_lt_zero k)
  | succ n ih =>
    obtain ⟨t, ht, hrest⟩ := bind_ok.mp h
    obtain ⟨hlt, hJt⟩ := hstep base s t hJ ht
    intro k hk
    cases k with
    | zero =>
      rw [add_ofNat_zero]
      exact hlt
    | succ k =>
      have hlt' := ih hJt hrest k (by omega)
      rwa [UInt64.add_assoc, UInt64.add_comm 1, ← UInt64.add_assoc, add_ofNat_succ] at hlt'

/-- The indices are slots when `_begin` and `_end` are in order and not past the capacity. -/
theorem Holds.inStorage_iff (h : Holds b xs) :
    InStorage b ↔ ∀ k < xs.length, b.begin + UInt64.ofNat k < capacity := by
  have hcap := h.storage.le
  rw [h.size] at hcap
  have hlen := h.length_le
  have hbegin := b.begin.toNat_lt
  constructor
  · rintro (heq | ⟨hlt, hle⟩) k hk
    · have hzero : b.size.toNat = 0 := by
        rw [CircularBufferFixedCapacity.size, heq, UInt64.sub_self]
        rfl
      rw [h.size_toNat] at hzero
      omega
    · rw [UInt64.lt_iff_toNat_lt] at hlt ⊢
      rw [UInt64.le_iff_toNat_le] at hle
      have hsize := h.size_toNat
      rw [CircularBufferFixedCapacity.size, UInt64.toNat_sub_of_le] at hsize
      · rw [toNat_add_ofNat (by omega)]
        omega
      · rw [UInt64.le_iff_toNat_le]
        omega
  · intro hall
    rcases Nat.eq_zero_or_pos xs.length with h0 | hpos
    · left
      rw [h.end_, h0]
      exact (add_ofNat_zero _).symm
    · right
      have h0 := hall 0 hpos
      rw [add_ofNat_zero, UInt64.lt_iff_toNat_lt] at h0
      have hfit : b.begin.toNat + xs.length ≤ capacity.toNat := by
        by_contra hc
        have hk := hall (capacity.toNat - b.begin.toNat) (by omega)
        rw [UInt64.lt_iff_toNat_lt, toNat_add_ofNat (by omega)] at hk
        omega
      rw [h.end_, UInt64.lt_iff_toNat_lt, UInt64.le_iff_toNat_le, toNat_add_ofNat (by omega)]
      omega

/-- The index of a slot is its own remainder. -/
theorem place_of_lt {m : Block T} (hp : m.Power) {idx : UInt64} (hlt : idx < m.size) :
    m.place idx = idx := by
  apply UInt64.toNat_inj.mp
  rw [hp.place_toNat]
  exact Nat.mod_eq_of_lt (UInt64.lt_iff_toNat_lt.mp hlt)

/-- The elements from place `k` on are still in the block. -/
structure Left (begin : UInt64) (xs : List T) (k : Nat) (m : Block T) : Prop where
  power : m.Power
  fits : xs.length ≤ m.size.toNat
  valueAt : ∀ p < xs.length, k ≤ p → m.valueAt begin p = xs[p]?

theorem Holds.left (h : Holds b xs) : Left b.begin xs 0 b.storage :=
  ⟨h.storage, h.capacity_eq ▸ h.fits, fun p hp _ => h.valueAt p hp⟩

theorem Left.view {begin : UInt64} {k : Nat} {m : Block T} (h : Left begin xs k m)
    (hk : k < xs.length) : ∃ id, m.view begin k = some ⟨id, xs[k]?⟩ := by
  have hv := h.valueAt k hk (Nat.le_refl k)
  rw [List.getElem?_eq_getElem hk] at hv
  obtain ⟨e, he, hx⟩ := Option.bind_eq_some_iff.mp hv
  refine ⟨e.id, ?_⟩
  rw [he, List.getElem?_eq_getElem hk, ← hx]

theorem Left.put {begin : UInt64} {k : Nat} {m : Block T} (h : Left begin xs k m)
    (e : Option (Element T)) : Left begin xs (k + 1) (m.put begin k e) where
  power := h.power.congr rfl
  fits := h.fits
  valueAt p hp hle := by
    have hfits := h.fits
    rw [h.power.valueAt_put (by omega) (by omega), if_neg (by omega)]
    exact h.valueAt p hp (Nat.le_of_succ_le hle)

theorem Left.destroy {begin : UInt64} {k : Nat} {m : Block T} (h : Left begin xs k m)
    (hk : k < xs.length) (l : Ledger) :
    ∃ m' l', m.destroy (m.place (begin + UInt64.ofNat k)) l = .ok (m', l') ∧ m'.size = m.size ∧
      Left begin xs (k + 1) m' := by
  obtain ⟨id, hv⟩ := h.view hk
  exact ⟨_, _, h.power.destroy (Block.idAt_of_view hv), rfl, h.put none⟩

/-- `clear` destroys the elements wherever their indices are. -/
theorem Holds.clear (h : Holds b xs) : ∃ b', b.clear = .ok b' ∧ Holds b' [] := by
  obtain ⟨⟨m, l⟩, hs, hsize, -⟩ := forIndices_spec
    (f := fun i (s : Block T × Ledger) => s.1.destroy (mask capacity i) s.2)
    (I := fun k s => s.1.size = capacity ∧ Left b.begin xs k s.1)
    (n := xs.length) (s := (b.storage, b.ledger)) ⟨h.size, h.left⟩ (by
      rintro k hk ⟨m, l⟩ ⟨hsize, hm⟩
      obtain ⟨m', l', hdes, hsize', hm'⟩ := hm.destroy hk l
      rw [← mask_eq hm.power hsize] at hdes
      exact ⟨_, hdes, hsize'.trans hsize, hm'⟩)
  refine ⟨{ begin := 0, end_ := 0, storage := m, ledger := l }, ?_, ?_⟩
  · rw [CircularBufferFixedCapacity.clear, loop, h.size_toNat, hs]
    rfl
  · exact ⟨h.power, hsize, rfl, Nat.zero_le _, fun _ hi => absurd hi (Nat.not_lt_zero _)⟩

/-- The destructor stays inside the storage exactly when the indices are slots. -/
theorem Holds.destruct_iff (h : Holds b xs) : b.destruct = .ok () ↔ InStorage b := by
  rw [h.inStorage_iff, destruct, loop, h.size_toNat]
  constructor
  · intro hok
    obtain ⟨s, hs, -⟩ := bind_ok.mp hok
    refine forIndices_lt (J := fun s : Block T × Ledger => s.1.size = capacity) ?_ h.size hs
    rintro i ⟨m, l⟩ s' hm hd
    obtain ⟨e, he, hd⟩ := bind_ok.mp hd
    obtain rfl := Except.ok.inj hd
    have hm : m.size = capacity := hm
    refine ⟨?_, hm⟩
    dsimp only at he
    rw [Block.get, hm] at he
    split at he
    · cases he
    · rename_i hc
      exact UInt64.not_le.mp hc
  · intro hall
    obtain ⟨s, hs, -⟩ := forIndices_spec
      (f := fun i (s : Block T × Ledger) => s.1.destroy i s.2)
      (I := fun k s => s.1.size = capacity ∧ Left b.begin xs k s.1)
      (n := xs.length) (s := (b.storage, b.ledger)) ⟨h.size, h.left⟩ (by
        rintro k hk ⟨m, l⟩ ⟨hsize, hm⟩
        obtain ⟨m', l', hdes, hsize', hm'⟩ := hm.destroy hk l
        rw [place_of_lt hm.power (hsize.symm ▸ hall k hk)] at hdes
        exact ⟨_, hdes, hsize'.trans hsize, hm'⟩)
    rw [hs]
    rfl

/-- The first `k` elements are in the new storage. -/
structure Moved (begin : UInt64) (xs : List T) (k : Nat) (m : Block T) : Prop where
  power : m.Power
  valueAt : ∀ p < k, m.valueAt begin p = xs[p]?

theorem moveSlot_spec {begin : UInt64} {k : Nat} {t m : Block T} {l : Ledger}
    (ht : Moved begin xs k t) (hm : Left begin xs k m) (hsize : t.size = m.size)
    (hk : k < xs.length) (hlt : begin + UInt64.ofNat k < m.size) :
    ∃ t' m' l', moveSlot (begin + UInt64.ofNat k) (t, m, l) = .ok (t', m', l') ∧
      t'.size = t.size ∧ m'.size = m.size ∧ Moved begin xs (k + 1) t' ∧
      Left begin xs (k + 1) m' := by
  obtain ⟨id, hv⟩ := hm.view hk
  have hget := hm.power.get hv
  rw [place_of_lt hm.power hlt] at hget
  have hcon : t.construct (t.place (begin + UInt64.ofNat k)) xs[k]? l = _ := ht.power.construct _
  rw [place_of_lt ht.power (hsize ▸ hlt)] at hcon
  have hslot : (begin + UInt64.ofNat k).toNat =
      Ring.slot m.size.toNat (begin + UInt64.ofNat k) :=
    (Nat.mod_eq_of_lt (UInt64.lt_iff_toNat_lt.mp hlt)).symm
  have hfits := hm.fits
  have hcap : t.size.toNat = m.size.toNat := by rw [hsize]
  refine ⟨t.put begin k (some ⟨l.constructed, xs[k]?⟩), m.put begin k (some ⟨id, none⟩),
    { l with constructed := l.constructed + 1 }, ?_, rfl, rfl, ⟨ht.power.congr rfl, ?_⟩,
    hm.put _⟩
  · rw [moveSlot, hget, ok_bind]
    dsimp only
    rw [hcon, ok_bind, hslot]
    rfl
  · intro p hp
    rw [ht.power.valueAt_put (by omega) (by omega)]
    split
    · rename_i hpk
      rw [hpk]
      rfl
    · exact ht.valueAt p (by omega)

theorem moveSlot_lt {i : UInt64} {s s' : Block T × Block T × Ledger} (hs : s.2.1.size = capacity)
    (h : moveSlot i s = .ok s') : i < capacity ∧ s'.2.1.size = capacity := by
  obtain ⟨e, he, h⟩ := bind_ok.mp h
  obtain ⟨r, -, h⟩ := bind_ok.mp h
  obtain rfl := Except.ok.inj h
  refine ⟨?_, hs⟩
  rw [Block.get, hs] at he
  split at he
  · cases he
  · rename_i hc
    exact UInt64.not_le.mp hc

/-- The move constructor stays inside the storage exactly when the indices are slots, and then it
transfers the elements. -/
theorem Holds.moveConstruct (h : Holds b xs) :
    (∀ r, b.moveConstruct = .ok r → InStorage b) ∧
      (InStorage b → ∃ r, b.moveConstruct = .ok r ∧ Holds r.1 xs ∧ Holds r.2 []) := by
  rw [h.inStorage_iff, CircularBufferFixedCapacity.moveConstruct, loop, h.size_toNat]
  constructor
  · intro r hok
    obtain ⟨s, hs, -⟩ := bind_ok.mp hok
    refine forIndices_lt (J := fun s : Block T × Block T × Ledger => s.2.1.size = capacity) ?_
      h.size hs
    intro i s s' hJ hstep
    exact moveSlot_lt hJ hstep
  · intro hall
    have hp : ({ size := capacity } : Block T).Power := h.power
    obtain ⟨⟨t, m, l⟩, hs, ht, hm, hmoved, -⟩ := forIndices_spec (f := moveSlot)
      (I := fun k (s : Block T × Block T × Ledger) => s.1.size = capacity ∧ s.2.1.size = capacity ∧
        Moved b.begin xs k s.1 ∧ Left b.begin xs k s.2.1)
      (n := xs.length) (s := ({ size := capacity }, b.storage, {}))
      ⟨rfl, h.size, ⟨hp, fun _ hp => absurd hp (Nat.not_lt_zero _)⟩, h.left⟩ (by
        rintro k hk ⟨t, m, l⟩ ⟨ht, hm, hmoved, hleft⟩
        obtain ⟨t', m', l', hstep, ht', hm', hmoved', hleft'⟩ := moveSlot_spec (l := l) hmoved
          hleft (ht.trans hm.symm) hk (hm.symm ▸ hall k hk)
        exact ⟨_, hstep, ht'.trans ht, hm'.trans hm, hmoved', hleft'⟩)
    rw [hs]
    refine ⟨_, rfl, ?_, ?_⟩
    · exact ⟨h.power, ht, h.end_, h.fits, hmoved.valueAt⟩
    · exact ⟨h.power, hm, rfl, Nat.zero_le _, fun _ hi => absurd hi (Nat.not_lt_zero _)⟩

/-- An ending stays inside the storage, and leaves the elements that it should, exactly when the
indices it takes for slots are slots. -/
theorem Holds.finish_iff {x : CircularBufferFixedCapacity T capacity} (h : Holds b xs)
    (hx : Holds x ys) (e : Ending) :
    (∃ r, finish b x e = .ok r ∧ Option.Rel ReadsAs r (finished ys e)) ↔ Inside b x e := by
  obtain ⟨hin, hmove⟩ := hx.moveConstruct
  cases e with
  | moveConstruct =>
    constructor
    · rintro ⟨r, hr, -⟩
      obtain ⟨s, hs, -⟩ := map_ok.mp hr
      exact hin s hs
    · intro hi
      obtain ⟨r, hr, hh, -⟩ := hmove hi
      exact ⟨_, map_ok.mpr ⟨r, hr, rfl⟩, Option.Rel.some hh.readsAs⟩
  | moveAssign =>
    constructor
    · rintro ⟨r, hr, -⟩
      obtain ⟨s, hs, -⟩ := map_ok.mp hr
      obtain ⟨u, hu, hs⟩ := bind_ok.mp hs
      exact ⟨h.destruct_iff.mp hu, hin s hs⟩
    · rintro ⟨hb, hi⟩
      obtain ⟨r, hr, hh, -⟩ := hmove hi
      refine ⟨_, map_ok.mpr ⟨r, ?_, rfl⟩, Option.Rel.some hh.readsAs⟩
      rw [moveAssign, h.destruct_iff.mpr hb, ok_bind, hr]
  | clear =>
    refine ⟨fun _ => trivial, fun _ => ?_⟩
    obtain ⟨b', hb', hh⟩ := hx.clear
    exact ⟨_, map_ok.mpr ⟨b', hb', rfl⟩, Option.Rel.some hh.readsAs⟩
  | destruct =>
    constructor
    · rintro ⟨r, hr, -⟩
      obtain ⟨u, hu, -⟩ := map_ok.mp hr
      exact hx.destruct_iff.mp hu
    · intro hi
      exact ⟨_, map_ok.mpr ⟨(), hx.destruct_iff.mpr hi, rfl⟩, Option.Rel.none⟩

/-- Pushing and popping never leave the storage; moving, assigning, clearing or destroying the
buffer then does not either, and a move transfers the elements, exactly when the indices that are
taken for slots are slots. -/
theorem finish_inside_iff (hc : ∃ k, capacity.toNat = 2 ^ k) (as bs : List (Action T))
    (ha : Run.Along step Valid (({} : CircularBufferFixedCapacity T capacity), []) as)
    (hb : Run.Along step Valid (({} : CircularBufferFixedCapacity T capacity), []) bs)
    (e : Ending) :
    ∃ (b x : CircularBufferFixedCapacity T capacity) (xs ys : List T),
      run ({}, []) as = .ok (b, xs) ∧ run ({}, []) bs = .ok (x, ys) ∧
      ReadsAs b xs ∧ ReadsAs x ys ∧
      ((∃ r, finish b x e = .ok r ∧ Option.Rel ReadsAs r (finished ys e)) ↔ Inside b x e) := by
  have hc : ∃ k ≤ 63, capacity.toNat = 2 ^ k := by
    obtain ⟨k, hk⟩ := hc
    have hlt := capacity.toNat_lt
    rw [hk] at hlt
    exact ⟨k, Nat.le_of_lt_succ ((Nat.pow_lt_pow_iff_right (by decide)).mp hlt), hk⟩
  obtain ⟨b, xs, hr, h⟩ := (Holds.initial hc).run ha
  obtain ⟨x, ys, hr', hx⟩ := (Holds.initial hc).run hb
  exact ⟨b, x, xs, ys, hr, hr', h.readsAs, hx.readsAs, h.finish_iff hx e⟩

/-- Two buffers of four slots: one pushed to at its end only, one after a pop. -/
theorem finish_inside_iff_moved :
    ∃ (b x : CircularBufferFixedCapacity Char 4) (xs ys : List Char),
      run ({}, []) [.pushBack 'a', .pushBack 'b'] = .ok (b, xs) ∧
      run ({}, []) [.pushBack 'c', .pushBack 'd', .popFront] = .ok (x, ys) ∧
      ReadsAs b xs ∧ ReadsAs x ys ∧
      ((∃ r, finish b x .moveAssign = .ok r ∧ Option.Rel ReadsAs r (finished ys .moveAssign)) ↔
        Inside b x .moveAssign) :=
  finish_inside_iff ⟨2, rfl⟩ _ _ (by decide +kernel) (by decide +kernel) .moveAssign

/-- One element pushed in front of a buffer of four slots: the index is `2 ^ 64 - 1`. -/
theorem destruct_outside :
    Run.Along step Valid (({} : CircularBufferFixedCapacity Char 4), []) [.pushFront 'a'] ∧
    ∃ b : CircularBufferFixedCapacity Char 4,
      run ({}, []) [.pushFront 'a'] = .ok (b, ['a']) ∧
      finish {} b .destruct = .error .outOfBounds ∧
      finish {} b .moveConstruct = .error .outOfBounds := by
  refine ⟨by decide +kernel, _, rfl, rfl, rfl⟩

end CircularBufferFixedCapacity

end Seastar
