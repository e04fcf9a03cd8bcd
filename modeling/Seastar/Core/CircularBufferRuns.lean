import Seastar.Core.CircularBufferErase

/-!
Runs of a `circular_buffer`, beside a list under the same operations. In every run the
buffer holds the list, whatever its two indices are, unless more than `2 ^ 63` elements
are reserved.
-/

namespace Seastar

open Lib

namespace CircularBuffer

variable {T : Type}

/-- What can happen to a buffer. The elements pushed come with their constructor, which may throw,
and with what growing meets; `erase` is given the places of its iterators. -/
inductive Action (T : Type)
  | emplaceFront (g : Growth) (x : Option T)
  | emplaceBack (g : Growth) (x : Option T)
  | popFront
  | popBack
  | assign (i : Nat) (x : T)
  | erase (i j : Nat)
  | clear
  | reserve (g : Growth) (n : UInt64)
  | move
  deriving DecidableEq, Repr

/-- One action; tells whether an exception was thrown. -/
def operate (b : CircularBuffer T) : Action T → Except Fault (Bool × CircularBuffer T)
  | .emplaceFront g x => b.emplaceFront g x
  | .emplaceBack g x => b.emplaceBack g x
  | .popFront => b.popFront.map (false, ·)
  | .popBack => b.popBack.map (false, ·)
  | .assign i x => (b.assign (UInt64.ofNat i) x).map (false, ·)
  | .erase i j =>
    (b.erase (b.begin + UInt64.ofNat i) (b.begin + UInt64.ofNat j)).map (false, ·)
  | .clear => b.clear.map (false, ·)
  | .reserve g n => b.reserve g n
  | .move => .ok (false, b.move.1)

/-- The action on a list. -/
def onList (xs : List T) : Action T → List T
  | .emplaceFront _ x => x.toList ++ xs
  | .emplaceBack _ x => xs ++ x.toList
  | .popFront => xs.tail
  | .popBack => xs.dropLast
  | .assign i x => xs.set i x
  | .erase i j => xs.take i ++ xs.drop j
  | .clear => []
  | .reserve _ _ => xs
  | .move => xs

/-- The buffer and the list side by side; an action that throws is not taken by the list. -/
def step (s : CircularBuffer T × List T) (a : Action T) :
    Except Fault (CircularBuffer T × List T) := do
  let (thrown, b) ← s.1.operate a
  .ok (b, if thrown then s.2 else onList s.2 a)

/-- The buffer and the list after the actions, oldest first. -/
def run : CircularBuffer T × List T → List (Action T) →
    Except Fault (CircularBuffer T × List T) := Run.run step

/-- What the callers have to observe: nothing is popped from an empty buffer, and indices and
iterators are those of elements. -/
def Valid (s : CircularBuffer T × List T) : Action T → Prop
  | .popFront => s.1.empty = false
  | .popBack => s.1.empty = false
  | .assign i _ => i < s.1.size.toNat
  | .erase i j => i ≤ j ∧ j ≤ s.1.size.toNat
  | _ => True

/-- No more than `2 ^ 63` elements are reserved. -/
def Reservable (_ : CircularBuffer T × List T) : Action T → Prop
  | .reserve _ n => n.toNat ≤ 2 ^ 63
  | _ => True

/-- The range of objects to be destroyed does not wrap. -/
def Unwrapped (s : CircularBuffer T × List T) : Action T → Prop
  | .erase i j => NoWrap s.1 i j
  | .clear => NoWrap s.1 0 s.1.size.toNat
  | _ => True

instance (s : CircularBuffer T × List T) (a : Action T) : Decidable (Valid s a) := by
  unfold Valid
  split <;> infer_instance

instance (s : CircularBuffer T × List T) (a : Action T) : Decidable (Reservable s a) := by
  unfold Reservable
  split <;> infer_instance

instance (s : CircularBuffer T × List T) (a : Action T) : Decidable (Unwrapped s a) := by
  unfold Unwrapped
  split <;> infer_instance

/-- The buffer is read as the list: by an iterator, and by `operator[]`. -/
structure ReadsAs (b : CircularBuffer T) (xs : List T) : Prop where
  iterate : b.iterate = .ok xs
  at_ : ∀ i (hi : i < xs.length), b.at_ (UInt64.ofNat i) = .ok (xs.get ⟨i, hi⟩)
  size : b.size.toNat = xs.length
  size_eq : b.size = b.end_ - b.begin

variable {b : CircularBuffer T} {ids : List Nat} {xs : List T} {P : Prop}

theorem Holds.readsAs (h : Holds P b ids xs) : ReadsAs b xs :=
  ⟨h.iterate, fun _ hi => h.deref hi, h.size_toNat, rfl⟩

/-! ## Actions -/

/-- An assignment to an element. -/
theorem Holds.assign (h : Holds P b ids xs) {i : Nat} (hi : i < xs.length) (x : T) :
    ∃ b', b.assign (UInt64.ofNat i) x = .ok b' ∧ Holds P b' ids (xs.set i x) := by
  have hcap : i < b.capacity.toNat := Nat.lt_of_lt_of_le hi h.fits
  have hp := h.power_of_lt hcap
  obtain ⟨id, hid⟩ := Option.isSome_iff_exists.mp (h.isSome hi)
  obtain ⟨value, he⟩ := Block.exists_of_idAt hid
  have hget : b.storage.get (b.mask (b.begin + UInt64.ofNat i)) = .ok ⟨id, value⟩ := hp.get he
  have hmask : (b.mask (b.begin + UInt64.ofNat i)).toNat = _ := hp.place_toNat _
  refine ⟨{ b with storage := b.storage.put b.begin i (some ⟨id, some x⟩) }, ?_, ?_⟩
  · rw [CircularBuffer.assign, hget, ok_bind, hmask]
    rfl
  · have hids : ∀ p < b.capacity.toNat,
        (b.storage.put b.begin i (some ⟨id, some x⟩)).idAt b.begin p =
          b.storage.idAt b.begin p := by
      intro p hlt
      rw [hp.idAt_put hlt hcap]
      split
      · rename_i hpi
        rw [hpi, hid]
        rfl
      · rfl
    have hfits := h.fits
    constructor
    · exact Or.inr (hp.congr rfl)
    · exact h.bound
    · rw [List.length_set]
      exact h.end_
    · rw [List.length_set]
      exact hfits
    · rw [List.length_set]
      exact h.len
    · intro p hlt
      rw [List.length_set] at hlt
      exact (hids p (by omega)).trans (h.idAt p hlt)
    · intro p hlt
      rw [List.length_set] at hlt
      show (b.storage.put b.begin i _).valueAt b.begin p = _
      rw [hp.valueAt_put (show p < b.capacity.toNat by omega) hcap, List.getElem?_set]
      by_cases hpi : p = i
      · rw [if_pos hpi, if_pos hpi.symm, if_pos hi]
        rfl
      · rw [if_neg hpi, if_neg (Ne.symm hpi)]
        exact h.valueAt p hlt
    · intro hP p hlt hge
      rw [List.length_set] at hge
      exact (hids p hlt).trans (h.rest hP p hlt hge)
    · exact h.once

theorem Holds.clear_eq (h : Holds P b ids xs) :
    b.clear = b.erase (b.begin + UInt64.ofNat 0) (b.begin + UInt64.ofNat xs.length) := by
  rw [CircularBuffer.clear, add_ofNat_zero, ← h.end_]

theorem Holds.ne_nil (h : Holds P b ids xs) (hne : b.empty = false) : xs ≠ [] ∧ ids ≠ [] := by
  have hxs : xs ≠ [] := by
    intro hc
    rw [h.empty_iff.mpr hc] at hne
    exact Bool.false_ne_true hne.symm
  refine ⟨hxs, fun hc => hxs ?_⟩
  apply List.eq_nil_of_length_eq_zero
  rw [← h.len, hc]
  rfl

/-- An action on the buffer is the action on the list, and it loses no object unless the indices of
objects to be destroyed wrap. -/
theorem Holds.operate (h : Holds P b ids xs) {a : Action T} (hv : Valid (b, xs) a)
    (hr : Reservable (b, xs) a) :
    ∃ thrown b' ids', b.operate a = .ok (thrown, b') ∧
      Holds (P ∧ Unwrapped (b, xs) a) b' ids' (if thrown then xs else onList xs a) := by
  cases a with
  | emplaceFront g x =>
    obtain ⟨thrown, b', ids', he, hh⟩ := h.emplaceFront g x
    exact ⟨thrown, b', ids', he, hh.mono And.left⟩
  | emplaceBack g x =>
    obtain ⟨thrown, b', ids', he, hh⟩ := h.emplaceBack g x
    exact ⟨thrown, b', ids', he, hh.mono And.left⟩
  | popFront =>
    obtain ⟨hxs, hids⟩ := h.ne_nil hv
    obtain ⟨x, ys, rfl⟩ := List.exists_cons_of_ne_nil hxs
    obtain ⟨id, rest, rfl⟩ := List.exists_cons_of_ne_nil hids
    obtain ⟨b', he, hh⟩ := h.popFront
    exact ⟨false, b', rest, by rw [CircularBuffer.operate, he]; rfl, hh.mono And.left⟩
  | popBack =>
    obtain ⟨hxs, hids⟩ := h.ne_nil hv
    rw [← List.dropLast_append_getLast hxs, ← List.dropLast_append_getLast hids] at h
    obtain ⟨b', he, hh⟩ := h.popBack
    exact ⟨false, b', _, by rw [CircularBuffer.operate, he]; rfl, hh.mono And.left⟩
  | assign i x =>
    rw [Valid, h.size_toNat] at hv
    obtain ⟨b', he, hh⟩ := h.assign hv x
    exact ⟨false, b', ids, by rw [CircularBuffer.operate, he]; rfl, hh.mono And.left⟩
  | erase i j =>
    rw [Valid, h.size_toNat] at hv
    obtain ⟨b', ids', he, hh, -⟩ := h.erase hv.1 hv.2
    exact ⟨false, b', ids', by rw [CircularBuffer.operate, he]; rfl, hh⟩
  | clear =>
    obtain ⟨b', ids', he, hh, -⟩ := h.erase (Nat.zero_le _) (Nat.le_refl xs.length)
    rw [List.take_zero, List.drop_length] at hh
    refine ⟨false, b', ids', by rw [CircularBuffer.operate, h.clear_eq, he]; rfl, ?_⟩
    unfold Unwrapped
    rw [h.size_toNat]
    exact hh
  | reserve g n =>
    obtain ⟨thrown, b', ids', he, hh⟩ := h.reserve g hr
    refine ⟨thrown, b', ids', he, ?_⟩
    rw [onList, ite_self]
    exact hh.mono And.left
  | move => exact ⟨false, b, ids, rfl, h.mono And.left⟩

theorem Holds.step (h : Holds P b ids xs) {a : Action T} (hv : Valid (b, xs) a)
    (hr : Reservable (b, xs) a) :
    ∃ s, step (b, xs) a = .ok s ∧ ∃ ids', Holds (P ∧ Unwrapped (b, xs) a) s.1 ids' s.2 := by
  obtain ⟨thrown, b', ids', he, hh⟩ := h.operate hv hr
  exact ⟨_, by rw [CircularBuffer.step, he]; rfl, ids', hh⟩

/-- A step that is not reservable is not defined. -/
theorem Holds.reservable (h : Holds P b ids xs) {a : Action T} {s : CircularBuffer T × List T}
    (hs : CircularBuffer.step (b, xs) a = .ok s) : Reservable (b, xs) a := by
  cases a with
  | reserve g n =>
    by_contra hc
    have hshift := h.reserve_shift g (Nat.lt_of_not_le hc)
    rw [CircularBuffer.step, CircularBuffer.operate, hshift] at hs
    cases hs
  | _ => trivial

/-- In every run the buffer reads as the list under the same operations, in every state on the way,
exactly when no more than `2 ^ 63` elements are ever reserved at once. -/
theorem run_reads_as_list (as : List (Action T)) (hv : Run.Along step Valid ({}, []) as) :
    (∀ pre post, as = pre ++ post → ∃ b xs, run ({}, []) pre = .ok (b, xs) ∧ ReadsAs b xs) ↔
      Run.Along step Reservable ({}, []) as := by
  have hkeep : ∀ (s : CircularBuffer T × List T) a, (∃ ids, Holds False s.1 ids s.2) →
      Valid s a ∧ Reservable s a → ∃ s', step s a = .ok s' ∧ ∃ ids, Holds False s'.1 ids s'.2 := by
    rintro ⟨b, xs⟩ a ⟨ids, h⟩ ⟨hva, hra⟩
    obtain ⟨s, hs, ids', h'⟩ := h.step hva hra
    exact ⟨s, hs, ids', h'.mono False.elim⟩
  constructor
  · intro hall
    have h₀ : ∃ ids, Holds False ({} : CircularBuffer T) ids [] := ⟨[], Holds.initial⟩
    revert h₀ hv hall
    generalize ({} : CircularBuffer T) = b
    generalize ([] : List T) = xs
    intro hv hall h₀
    induction as generalizing b xs with
    | nil => trivial
    | cons a as ih =>
      obtain ⟨ids, h⟩ := h₀
      obtain ⟨b₁, xs₁, hrun, -⟩ := hall [a] as rfl
      obtain ⟨s, hs, hnil⟩ := Run.run_cons_ok.mp hrun
      have hra := h.reservable hs
      refine ⟨hra, fun s' hs' => ?_⟩
      obtain ⟨s'', hs'', hh⟩ := hkeep (b, xs) a ⟨ids, h⟩ ⟨hv.1, hra⟩
      obtain rfl := Except.ok.inj (hs''.symm.trans hs')
      refine ih s''.1 s''.2 (hv.2 s'' hs') ?_ hh
      rintro pre post rfl
      obtain ⟨b₂, xs₂, hrun₂, hreads⟩ := hall (a :: pre) post rfl
      obtain ⟨t, ht, hrun₂⟩ := Run.run_cons_ok.mp hrun₂
      obtain rfl := Except.ok.inj (hs'.symm.trans ht)
      exact ⟨b₂, xs₂, hrun₂, hreads⟩
  · rintro hr pre post rfl
    obtain ⟨s, hs, ids, hh⟩ := Run.run_ok hkeep ⟨[], Holds.initial⟩
      (hv.of_append.and hr.of_append)
    exact ⟨s.1, s.2, hs, hh.readsAs⟩

/-- Indices below zero, growth, and an `erase` that moves the elements in front. -/
theorem run_reads_as_list_wrapped :
    Run.Along step Reservable ({}, []) ([.emplaceFront {} (some 'a'), .emplaceFront {} (some 'b'),
        .emplaceBack {} (some 'c'), .emplaceFront {} (some 'd'), .erase 1 2, .popBack,
        .reserve {} 9] : List (Action Char)) ∧
      ∀ pre post, ([.emplaceFront {} (some 'a'), .emplaceFront {} (some 'b'),
          .emplaceBack {} (some 'c'), .emplaceFront {} (some 'd'), .erase 1 2, .popBack,
          .reserve {} 9] : List (Action Char)) = pre ++ post →
        ∃ b xs, run ({}, []) pre = .ok (b, xs) ∧ ReadsAs b xs := by
  have hreservable : Run.Along step Reservable ({}, []) ([.emplaceFront {} (some 'a'),
      .emplaceFront {} (some 'b'), .emplaceBack {} (some 'c'), .emplaceFront {} (some 'd'),
      .erase 1 2, .popBack, .reserve {} 9] : List (Action Char)) := by decide +kernel
  exact ⟨hreservable, (run_reads_as_list _ (by decide +kernel)).mpr hreservable⟩

/-- No power of two fits in the type when `2 ^ 63 + 1` elements are reserved. -/
theorem reserve_too_many :
    Run.Along step Valid ({}, []) ([.reserve {} 0x8000000000000001] : List (Action Char)) ∧
    run ({}, []) ([.reserve {} 0x8000000000000001] : List (Action Char)) = .error .shiftTooFar := by
  constructor
  · decide +kernel
  · rfl

end CircularBuffer

end Seastar
