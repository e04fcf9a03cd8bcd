import Mathlib.Data.List.Nodup
import Seastar.Core.CircularBufferRuns

/-!
The objects of a `circular_buffer`. Every object that is constructed is destroyed once,
and as many are in the storage as the buffer has elements, unless `erase` or `clear`
meets indices that wrap: then the loop that destroys objects ends before it begins.
-/

namespace Seastar

open Lib

variable {T : Type}

/-- The objects in the slots of a block. -/
def Block.live (m : Block T) : List Nat :=
  (List.range m.size.toNat).filterMap fun p => (m.slots p).map Element.id

/-- Read from any index on, a block has the same objects. -/
theorem Block.Power.live_perm {m : Block T} (hp : m.Power) (base : UInt64) :
    m.live.Perm ((List.range m.size.toNat).filterMap fun i => m.idAt base i) := by
  have hperm : (List.range m.size.toNat).Perm ((List.range m.size.toNat).map fun i =>
      Ring.slot m.size.toNat (base + UInt64.ofNat i)) := by
    apply (List.perm_ext_iff_of_nodup List.nodup_range ?_).mpr
    · intro p
      rw [List.mem_range, List.mem_map]
      constructor
      · intro hlt
        obtain ⟨i, hi, his⟩ := Ring.exists_slot hp.dvd base hlt
        exact ⟨i, List.mem_range.mpr hi, his⟩
      · rintro ⟨i, -, rfl⟩
        exact Ring.slot_lt hp.pos _
    · apply List.Nodup.map_on _ List.nodup_range
      intro i hi j hj h
      exact Ring.slot_inj hp.dvd (List.mem_range.mp hi) (List.mem_range.mp hj) h
  refine (hperm.filterMap _).trans ?_
  rw [List.filterMap_map]
  exact List.Perm.refl _

theorem filterMap_getElem? (l : List Nat) {n : Nat} (h : l.length ≤ n) :
    (List.range n).filterMap (fun i => l[i]?) = l := by
  have htake : ∀ k, (List.range k).filterMap (fun i => l[i]?) = l.take k := by
    intro k
    induction k with
    | zero => rfl
    | succ k ih =>
      rw [List.range_succ, List.filterMap_append, ih, List.take_add_one]
      rfl
  rw [htake, List.take_of_length_le h]

namespace CircularBuffer

variable {b b' : CircularBuffer T} {ids : List Nat} {xs : List T} {P : Prop}

/-- As many objects are in the storage as the buffer has elements; every object constructed has
been destroyed once or is one of them; and when the buffer is destroyed, every object is. -/
structure Kept (b : CircularBuffer T) : Prop where
  live : b.storage.live.length = b.size.toNat
  once : (b.ledger.destroyed ++ b.storage.live).Perm (List.range b.ledger.constructed)
  destruct : ∃ b', b.destruct = .ok b' ∧
    b'.ledger.destroyed.Perm (List.range b'.ledger.constructed)

/-- The objects of a tidy buffer are those of its elements. -/
theorem Holds.live_perm (h : Holds True b ids xs) : b.storage.live.Perm ids := by
  rcases h.power with h0 | hp
  · have hfits := h.fits
    rw [h0] at hfits
    have hids : ids = [] :=
      List.eq_nil_of_length_eq_zero (h.len.trans (Nat.eq_zero_of_le_zero hfits))
    have hsize : b.storage.size.toNat = 0 := by
      show b.capacity.toNat = 0
      rw [h0]
      rfl
    rw [hids, Block.live, hsize]
    exact List.Perm.refl _
  · refine (hp.live_perm b.begin).trans ?_
    have hid : (List.range b.storage.size.toNat).filterMap (fun i => b.storage.idAt b.begin i) =
        (List.range b.storage.size.toNat).filterMap fun i => ids[i]? := by
      apply List.filterMap_congr
      intro i hi
      have hcap : i < b.capacity.toNat := List.mem_range.mp hi
      by_cases hlt : i < xs.length
      · exact h.idAt i hlt
      · rw [h.rest trivial i hcap (Nat.le_of_not_lt hlt),
          List.getElem?_eq_none (h.len ▸ Nat.le_of_not_lt hlt)]
    rw [hid, filterMap_getElem? ids (h.len ▸ h.fits)]

/-- `~circular_buffer` destroys the objects of the elements. -/
theorem Holds.destruct (h : Holds P b ids xs) :
    ∃ b', b.destruct = .ok b' ∧
      b'.ledger = ⟨b.ledger.constructed, b.ledger.destroyed ++ ids⟩ := by
  obtain ⟨⟨m, l⟩, hs, -, hl⟩ := forIndices_spec
    (f := fun i (s : Block T × Ledger) => s.1.destroy (b.mask i) s.2)
    (I := fun k s => Vacated b k s.1 ∧
      s.2 = ⟨b.ledger.constructed, b.ledger.destroyed ++ ids.take k⟩)
    (n := xs.length) (s := (b.storage, b.ledger)) ⟨Vacated.start b, by simp⟩ (by
      rintro k hk ⟨m, l⟩ ⟨hm, hl⟩
      obtain ⟨m', hdes, hm'⟩ := hm.destroy h hk l
      refine ⟨_, hdes, hm', ?_⟩
      dsimp only at hl ⊢
      rw [hl, take_succ_toList, List.append_assoc])
  refine ⟨{ b with storage := {}, ledger := l }, ?_, ?_⟩
  · rw [CircularBuffer.destruct, forEach, h.size_toNat, hs, ok_bind]
  · dsimp only at hl ⊢
    rw [hl, ← h.len, List.take_length]

theorem Holds.kept (h : Holds True b ids xs) : Kept b where
  live := by rw [h.live_perm.length_eq, h.len, h.size_toNat]
  once := (h.live_perm.append_left _).trans (h.once trivial)
  destruct := by
    obtain ⟨b', hb', hl⟩ := h.destruct
    refine ⟨b', hb', ?_⟩
    rw [hl]
    exact h.once trivial

/-- After an `erase` whose indices wrap there are more objects than elements. -/
theorem Holds.not_kept_of_wrapped (h : Holds True b ids xs) {i j : Nat} (hij : i ≤ j)
    (hj : j ≤ xs.length)
    (he : b.erase (b.begin + UInt64.ofNat i) (b.begin + UInt64.ofNat j) = .ok b')
    (hw : ¬ NoWrap b i j) : ¬ Kept b' := by
  intro hk
  obtain ⟨c, ids', hc, hh, hsame⟩ := h.erase hij hj
  obtain rfl := Except.ok.inj (hc.symm.trans he)
  obtain ⟨-, hsize, hid⟩ := hsame hw
  have hlt : i < j := Nat.lt_of_le_of_ne hij fun hc => hw (Or.inl hc)
  have hp := h.power_of_lt (Nat.lt_of_lt_of_le (Nat.lt_of_lt_of_le hlt hj) h.fits)
  have hp' : c.storage.Power := hp.congr hsize
  have hperm : c.storage.live.Perm b.storage.live := by
    refine (hp'.live_perm b.begin).trans (List.Perm.trans ?_ (hp.live_perm b.begin).symm)
    rw [hsize]
    apply List.Perm.of_eq
    apply List.filterMap_congr
    intro p hlt
    exact hid p (List.mem_range.mp hlt)
  have hlive := hk.live
  rw [hperm.length_eq, h.live_perm.length_eq, h.len, hh.size_toNat, List.length_append,
    List.length_take, List.length_drop] at hlive
  omega

/-- A step after which the objects are kept does not meet indices that wrap. -/
theorem Holds.unwrapped (h : Holds True b ids xs) {a : Action T}
    {s : CircularBuffer T × List T} (hv : Valid (b, xs) a)
    (hs : CircularBuffer.step (b, xs) a = .ok s) (hk : Kept s.1) : Unwrapped (b, xs) a := by
  cases a with
  | erase i j =>
    rw [Valid, h.size_toNat] at hv
    obtain ⟨c, -, hc, -⟩ := h.erase hv.1 hv.2
    rw [CircularBuffer.step, CircularBuffer.operate, hc] at hs
    obtain rfl := Except.ok.inj hs
    by_contra hw
    exact h.not_kept_of_wrapped hv.1 hv.2 hc hw hk
  | clear =>
    obtain ⟨c, -, hc, -⟩ := h.erase (Nat.zero_le _) (Nat.le_refl xs.length)
    rw [CircularBuffer.step, CircularBuffer.operate, h.clear_eq, hc] at hs
    obtain rfl := Except.ok.inj hs
    by_contra hw
    rw [Unwrapped, h.size_toNat] at hw
    exact h.not_kept_of_wrapped (Nat.zero_le _) (Nat.le_refl _) hc hw hk
  | _ => trivial

/-- In every state of a run the objects are kept, exactly when the indices of the objects that
`erase` and `clear` destroy never wrap. -/
theorem run_keeps_objects (as : List (Action T)) (hv : Run.Along step Valid ({}, []) as) :
    (∀ pre post b xs, as = pre ++ post → run ({}, []) pre = .ok (b, xs) → Kept b) ↔
      Run.Along step Unwrapped ({}, []) as := by
  have hkeep : ∀ (s : CircularBuffer T × List T) a s', (∃ ids, Holds True s.1 ids s.2) →
      Valid s a ∧ Unwrapped s a → step s a = .ok s' → ∃ ids, Holds True s'.1 ids s'.2 := by
    rintro ⟨b, xs⟩ a s' ⟨ids, h⟩ ⟨hva, hua⟩ hs
    obtain ⟨s, hs', ids', h'⟩ := h.step hva (h.reservable hs)
    obtain rfl := Except.ok.inj (hs'.symm.trans hs)
    exact ⟨ids', h'.mono fun _ => ⟨trivial, hua⟩⟩
  constructor
  · intro hall
    have h₀ : ∃ ids, Holds True ({} : CircularBuffer T) ids [] := ⟨[], Holds.initial⟩
    revert h₀ hv hall
    generalize ({} : CircularBuffer T) = b
    generalize ([] : List T) = xs
    intro hv hall h₀
    induction as generalizing b xs with
    | nil => trivial
    | cons a as ih =>
      have hstep : ∀ s', step (b, xs) a = .ok s' → Kept s'.1 := by
        intro s' hs'
        exact hall [a] as s'.1 s'.2 rfl (Run.run_cons_ok.mpr ⟨s', hs', rfl⟩)
      obtain ⟨ids, h⟩ := h₀
      have hua : Unwrapped (b, xs) a := by
        by_cases hr : Reservable (b, xs) a
        · obtain ⟨s', hs', -⟩ := h.step hv.1 hr
          exact h.unwrapped hv.1 hs' (hstep s' hs')
        · -- only a reservation is not defined
          cases a with
          | reserve g n => trivial
          | _ => exact absurd trivial hr
      refine ⟨hua, fun s' hs' => ?_⟩
      refine ih s'.1 s'.2 (hv.2 s' hs') ?_ (hkeep _ _ _ ⟨ids, h⟩ ⟨hv.1, hua⟩ hs')
      rintro pre post c ys rfl hrun
      exact hall (a :: pre) post c ys rfl (Run.run_cons_ok.mpr ⟨s', hs', hrun⟩)
  · rintro hu pre post b xs rfl hrun
    obtain ⟨ids, h⟩ := Run.run_inv hkeep ⟨[], Holds.initial⟩ (hv.of_append.and hu.of_append) hrun
    exact h.kept

/-- A buffer that was only pushed to at its end is erased from and cleared. -/
theorem run_keeps_objects_cleared :
    Run.Along step Unwrapped ({}, []) ([.emplaceBack {} (some 'a'), .emplaceBack {} (some 'b'),
        .emplaceBack {} (some 'c'), .erase 0 1, .clear] : List (Action Char)) ∧
      ∀ pre post b xs, ([.emplaceBack {} (some 'a'), .emplaceBack {} (some 'b'),
          .emplaceBack {} (some 'c'), .erase 0 1, .clear] : List (Action Char)) = pre ++ post →
        run ({}, []) pre = .ok (b, xs) → Kept b := by
  have hunwrapped : Run.Along step Unwrapped ({}, []) ([.emplaceBack {} (some 'a'),
      .emplaceBack {} (some 'b'), .emplaceBack {} (some 'c'), .erase 0 1, .clear] :
      List (Action Char)) := by decide +kernel
  exact ⟨hunwrapped, (run_keeps_objects _ (by decide +kernel)).mpr hunwrapped⟩

/-- One element is pushed in front and the buffer is cleared: its object is still there. -/
theorem cleared_not_destroyed :
    Run.Along step Valid ({}, []) ([.emplaceFront {} (some 'a'), .clear] : List (Action Char)) ∧
    ∃ b, run ({}, []) ([.emplaceFront {} (some 'a'), .clear] : List (Action Char)) = .ok (b, []) ∧
      b.size = 0 ∧ b.storage.live = [0] ∧ b.ledger.destroyed = [] ∧
      ∃ b', b.destruct = .ok b' ∧ b'.ledger = ⟨1, []⟩ := by
  refine ⟨by decide +kernel, _, rfl, by decide +kernel, by decide +kernel, by decide +kernel, ?_⟩
  exact ⟨_, rfl, by decide +kernel⟩

end CircularBuffer

end Seastar
