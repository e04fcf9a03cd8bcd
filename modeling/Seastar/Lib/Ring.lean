import Mathlib.Data.Nat.ModEq

/-!
Arrays used as rings: an index that runs freely modulo `2 ^ 64` stands for the slot of
its remainder. `view` reads such an array from an index on; what is written in one slot
is seen at one place of the view.
-/

namespace Lib.Ring

variable {α : Type} {cap : Nat} {slots : Nat → α} {base idx : UInt64} {i j n : Nat}

/-- The slot of an index. -/
def slot (cap : Nat) (idx : UInt64) : Nat := idx.toNat % cap

theorem slot_lt (hcap : 0 < cap) (idx : UInt64) : slot cap idx < cap := Nat.mod_lt _ hcap

/-- The slot found by a mask. -/
theorem and_sub_one {c : UInt64} {k : Nat} (hc : c.toNat = 2 ^ k) (idx : UInt64) :
    (idx &&& (c - 1)).toNat = slot c.toNat idx := by
  have hpos : 0 < c.toNat := by
    rw [hc]
    exact Nat.two_pow_pos k
  have hsub : (c - 1).toNat = 2 ^ k - 1 := by
    rw [UInt64.toNat_sub_of_le]
    · rw [hc]
      rfl
    · rw [UInt64.le_iff_toNat_le]
      exact hpos
  rw [UInt64.toNat_and, hsub, Nat.and_two_pow_sub_one_eq_mod, slot, hc]

theorem slot_add (hd : cap ∣ 2 ^ 64) (base : UInt64) (i : Nat) :
    slot cap (base + UInt64.ofNat i) = (base.toNat + i) % cap := by
  rw [slot, UInt64.toNat_add, Nat.mod_mod_of_dvd _ hd, UInt64.toNat_ofNat', Nat.add_mod,
    Nat.mod_mod_of_dvd _ hd, ← Nat.add_mod]

/-- Places nearer than the length of the ring have slots of their own. -/
theorem slot_inj (hd : cap ∣ 2 ^ 64) (hi : i < cap) (hj : j < cap)
    (h : slot cap (base + UInt64.ofNat i) = slot cap (base + UInt64.ofNat j)) : i = j := by
  rw [slot_add hd, slot_add hd] at h
  have hmod : i % cap = j % cap := Nat.ModEq.add_left_cancel' base.toNat h
  rwa [Nat.mod_eq_of_lt hi, Nat.mod_eq_of_lt hj] at hmod

/-- Every slot is that of a place nearer than the length of the ring. -/
theorem exists_slot (hd : cap ∣ 2 ^ 64) (base : UInt64) {p : Nat} (hp : p < cap) :
    ∃ i < cap, slot cap (base + UInt64.ofNat i) = p := by
  have hpos : 0 < cap := Nat.lt_of_le_of_lt (Nat.zero_le p) hp
  have hb := Nat.mod_lt base.toNat hpos
  refine ⟨(p + (cap - base.toNat % cap)) % cap, Nat.mod_lt _ hpos, ?_⟩
  rw [slot_add hd, Nat.add_mod, Nat.mod_mod]
  have hsum : base.toNat % cap + (p + (cap - base.toNat % cap)) = p + cap := by omega
  calc (base.toNat % cap + (p + (cap - base.toNat % cap)) % cap) % cap
      = (base.toNat % cap + (p + (cap - base.toNat % cap))) % cap := by
        rw [Nat.add_mod_mod]
    _ = p := by rw [hsum, Nat.add_mod_right, Nat.mod_eq_of_lt hp]

/-- The array read from an index on. -/
def view (cap : Nat) (slots : Nat → α) (base : UInt64) (i : Nat) : α :=
  slots (slot cap (base + UInt64.ofNat i))

theorem view_add (n i : Nat) :
    view cap slots (base + UInt64.ofNat n) i = view cap slots base (n + i) := by
  rw [view, view, UInt64.ofNat_add, UInt64.add_assoc]

/-- After the last slot the view comes back to the first. -/
theorem view_wrap (hd : cap ∣ 2 ^ 64) (i : Nat) :
    view cap slots base (cap + i) = view cap slots base i := by
  unfold view
  congr 1
  rw [slot_add hd, slot_add hd]
  calc (base.toNat + (cap + i)) % cap = (base.toNat + i + cap) % cap := by
        congr 1
        omega
    _ = (base.toNat + i) % cap := Nat.add_mod_right _ _

/-- A write in one slot. -/
theorem view_update (hd : cap ∣ 2 ^ 64) (hi : i < cap) (hj : j < cap) (x : α) :
    view cap (Function.update slots (slot cap (base + UInt64.ofNat j)) x) base i =
      if i = j then x else view cap slots base i := by
  unfold view
  split
  · rename_i h
    rw [h, Function.update_self]
  · rename_i h
    exact Function.update_of_ne (fun hs => h (slot_inj hd hi hj hs)) ..

end Lib.Ring
