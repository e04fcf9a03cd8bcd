import Mathlib.Data.List.Forall2
import Seastar.Core.ChunkedFifo

/-!
What a `chunked_fifo` holds: a list of the elements of each chunk. All chunks but the
first and the last are full, so that the size follows from the two of them.
-/

namespace Seastar

open Lib

variable {T : Type} {itemsPerChunk : UInt64}

namespace ChunkedFifo

/-! ## Offsets -/

theorem slot_eq {k : Nat} (hc : itemsPerChunk.toNat = 2 ^ k) (offset : UInt32) :
    slot itemsPerChunk offset = offset.toNat % 2 ^ k := by
  rw [slot, mask, Ring.and_sub_one hc, Ring.slot, hc, UInt32.toNat_toUInt64]

/-- Offsets that differ by less than the capacity, and by less than `2 ^ 32`, have slots of their
own. -/
theorem slot_inj {k : Nat} (hc : itemsPerChunk.toNat = 2 ^ k) {b : UInt32} {i j : Nat}
    (hi : i < 2 ^ k) (hj : j < 2 ^ k) (hi' : i < 2 ^ 32) (hj' : j < 2 ^ 32)
    (h : slot itemsPerChunk (b + UInt32.ofNat i) = slot itemsPerChunk (b + UInt32.ofNat j)) :
    i = j := by
  rw [slot_eq hc, slot_eq hc, UInt32.toNat_add, UInt32.toNat_add, UInt32.toNat_ofNat',
    UInt32.toNat_ofNat', Nat.mod_eq_of_lt hi', Nat.mod_eq_of_lt hj'] at h
  rcases Nat.lt_or_ge k 32 with hk | hk
  · have hd : 2 ^ k ∣ 2 ^ 32 := Nat.pow_dvd_pow 2 (Nat.le_of_lt hk)
    rw [Nat.mod_mod_of_dvd _ hd, Nat.mod_mod_of_dvd _ hd] at h
    have hmod : i % 2 ^ k = j % 2 ^ k := Nat.ModEq.add_left_cancel' b.toNat h
    rwa [Nat.mod_eq_of_lt hi, Nat.mod_eq_of_lt hj] at hmod
  · have hle : 2 ^ 32 ≤ 2 ^ k := Nat.pow_le_pow_right (by decide) hk
    rw [Nat.mod_eq_of_lt (b := 2 ^ k), Nat.mod_eq_of_lt (b := 2 ^ k)] at h
    · have hmod : i % 2 ^ 32 = j % 2 ^ 32 := Nat.ModEq.add_left_cancel' b.toNat h
      rwa [Nat.mod_eq_of_lt hi', Nat.mod_eq_of_lt hj'] at hmod
    · exact Nat.lt_of_lt_of_le (Nat.mod_lt _ (by decide)) hle
    · exact Nat.lt_of_lt_of_le (Nat.mod_lt _ (by decide)) hle

theorem offset_succ (b : UInt32) (i : Nat) :
    b + UInt32.ofNat i + 1 = b + UInt32.ofNat (i + 1) := by
  rw [UInt32.add_assoc, UInt32.ofNat_add]
  rfl

theorem offset_shift (b : UInt32) (i : Nat) :
    b + 1 + UInt32.ofNat i = b + UInt32.ofNat (i + 1) := by
  rw [← offset_succ, UInt32.add_assoc, UInt32.add_comm 1, ← UInt32.add_assoc]

theorem offset_zero (b : UInt32) : b + UInt32.ofNat 0 = b := UInt32.add_zero b

/-! ## One chunk -/

/-- The chunk holds the elements, at least one; their number may be `2 ^ 32`. -/
structure Holds (itemsPerChunk : UInt64) (c : Chunk T) (l : List T) : Prop where
  nonempty : l ≠ []
  fits : l.length ≤ itemsPerChunk.toNat
  wide : l.length ≤ 2 ^ 32
  end_ : c.end_ = c.begin + UInt32.ofNat l.length
  items : ∀ i < l.length, c.items (slot itemsPerChunk (c.begin + UInt32.ofNat i)) = l[i]?

variable {c : Chunk T} {l : List T} {x : T}

/-- The number of elements that the offsets tell. -/
theorem Holds.count (h : Holds itemsPerChunk c l) :
    (c.end_ - c.begin).toUInt64.toNat = l.length % 2 ^ 32 := by
  rw [h.end_, UInt32.add_comm, UInt32.add_sub_cancel, UInt32.toNat_toUInt64, UInt32.toNat_ofNat']

theorem Holds.pos (h : Holds itemsPerChunk c l) : 0 < l.length :=
  List.length_pos_of_ne_nil h.nonempty

theorem Holds.count_eq_iff (h : Holds itemsPerChunk c l) (hlt : l.length < 2 ^ 32) :
    (c.end_ - c.begin).toUInt64 = itemsPerChunk ↔ l.length = itemsPerChunk.toNat := by
  rw [← UInt64.toNat_inj, h.count, Nat.mod_eq_of_lt hlt]

theorem Holds.begin_ne (h : Holds itemsPerChunk c l) (hlt : l.length < 2 ^ 32) :
    c.begin ≠ c.end_ := by
  intro heq
  have hcount := h.count
  rw [heq, UInt32.sub_self, Nat.mod_eq_of_lt hlt] at hcount
  exact Nat.ne_of_lt h.pos hcount

/-- The first element. -/
theorem Holds.item_front (h : Holds itemsPerChunk c (x :: l)) :
    item itemsPerChunk c c.begin = .ok x := by
  have hx := h.items 0 (Nat.succ_pos _)
  rw [offset_zero] at hx
  rw [item, hx]
  rfl

/-- The last element. -/
theorem Holds.item_back (h : Holds itemsPerChunk c (l ++ [x])) :
    item itemsPerChunk c (c.end_ - 1) = .ok x := by
  have hlast : c.end_ - 1 = c.begin + UInt32.ofNat l.length := by
    rw [h.end_, List.length_append, List.length_singleton, ← offset_succ, UInt32.add_sub_cancel]
  have hx := h.items l.length (by simp)
  rw [item, hlast, hx]
  simp

/-- A new element in a chunk with room. -/
theorem Holds.construct {k : Nat} (hc : itemsPerChunk.toNat = 2 ^ k)
    (h : Holds itemsPerChunk c l) (hroom : l.length < itemsPerChunk.toNat)
    (hlt : l.length < 2 ^ 32) (x : T) :
    Holds itemsPerChunk (constructBack itemsPerChunk x c) (l ++ [x]) where
  nonempty := by simp
  fits := by
    rw [List.length_append]
    exact hroom
  wide := by
    rw [List.length_append]
    exact hlt
  end_ := by
    show c.end_ + 1 = c.begin + _
    rw [h.end_, offset_succ, List.length_append]
    rfl
  items i hi := by
    rw [List.length_append, List.length_singleton] at hi
    show Function.update c.items (slot itemsPerChunk c.end_) (some x)
      (slot itemsPerChunk (c.begin + UInt32.ofNat i)) = _
    rw [h.end_]
    rcases Nat.lt_succ_iff_lt_or_eq.mp hi with hi' | rfl
    · rw [Function.update_of_ne, h.items i hi', List.getElem?_append_left hi']
      intro hs
      exact Nat.ne_of_lt hi' (slot_inj hc (by omega) (by omega) (by omega) hlt hs)
    · rw [Function.update_self]
      simp

/-- The first element in a new chunk, which may have been used before. -/
theorem Holds.constructFirst (hc : 0 < itemsPerChunk.toNat) (items : Nat → Option T) (x : T) :
    Holds itemsPerChunk (constructBack itemsPerChunk x { items }) [x] where
  nonempty := by simp
  fits := hc
  wide := Nat.one_le_two_pow
  end_ := rfl
  items i hi := by
    rw [List.length_singleton, Nat.lt_one_iff] at hi
    rw [hi]
    exact Function.update_self ..

/-- The chunk without its first element. -/
theorem Holds.pop {k : Nat} (hc : itemsPerChunk.toNat = 2 ^ k)
    (h : Holds itemsPerChunk c (x :: l)) (hne : l ≠ []) :
    Holds itemsPerChunk { c with
      items := Function.update c.items (slot itemsPerChunk c.begin) none
      begin := c.begin + 1 } l where
  nonempty := hne
  fits := Nat.le_of_succ_le h.fits
  wide := Nat.le_of_succ_le h.wide
  end_ := by
    show c.end_ = c.begin + 1 + UInt32.ofNat l.length
    rw [h.end_, List.length_cons, offset_shift]
  items i hi := by
    have hfits := h.fits
    have hwide := h.wide
    rw [List.length_cons] at hfits hwide
    show Function.update c.items (slot itemsPerChunk c.begin) none
      (slot itemsPerChunk (c.begin + 1 + UInt32.ofNat i)) = _
    rw [offset_shift, Function.update_of_ne, h.items (i + 1) (Nat.succ_lt_succ hi),
      List.getElem?_cons_succ]
    intro hs
    rw [← offset_zero c.begin, offset_zero] at hs
    have := slot_inj hc (b := c.begin) (i := i + 1) (j := 0) (by omega) (by omega) (by omega)
      (by omega) (by rwa [offset_zero])
    omega

/-- After the last element is popped the offsets meet. -/
theorem Holds.popped_iff (h : Holds itemsPerChunk c (x :: l)) (hlt : (x :: l).length < 2 ^ 32) :
    c.begin + 1 = c.end_ ↔ l = [] := by
  have hl : c.end_ = c.begin + 1 + UInt32.ofNat l.length := by
    rw [h.end_, List.length_cons, offset_shift]
  rw [List.length_cons] at hlt
  constructor
  · intro heq
    have hzero : (c.end_ - (c.begin + 1)).toNat = l.length := by
      rw [hl, UInt32.add_comm, UInt32.add_sub_cancel, UInt32.toNat_ofNat',
        Nat.mod_eq_of_lt (by omega)]
    rw [heq, UInt32.sub_self] at hzero
    exact List.eq_nil_of_length_eq_zero hzero.symm
  · rintro rfl
    rw [hl]
    exact (offset_zero _).symm

/-! ## The chunks -/

/-- The elements of a chunk from an offset on. -/
def read (itemsPerChunk : UInt64) (c : Chunk T) : Nat → UInt32 → Except Fault (List T)
  | 0, _ => .ok []
  | n + 1, offset => do
    let x ← item itemsPerChunk c offset
    let xs ← read itemsPerChunk c n (offset + 1)
    .ok (x :: xs)

/-- The elements in order, as a walk over the chunks meets them. -/
def contents (itemsPerChunk : UInt64) : List (Chunk T) → Except Fault (List T)
  | [] => .ok []
  | c :: cs => do
    let xs ← read itemsPerChunk c (c.end_ - c.begin).toNat c.begin
    let ys ← contents itemsPerChunk cs
    .ok (xs ++ ys)

theorem Holds.read (h : Holds itemsPerChunk c l) (n i : Nat) (hn : i + n = l.length) :
    read itemsPerChunk c n (c.begin + UInt32.ofNat i) = .ok (l.drop i) := by
  induction n generalizing i with
  | zero =>
    rw [List.drop_of_length_le (by omega)]
    rfl
  | succ n ih =>
    have hi : i < l.length := by omega
    have hx := h.items i hi
    rw [List.getElem?_eq_getElem hi] at hx
    have hitem : item itemsPerChunk c (c.begin + UInt32.ofNat i) = .ok l[i] := by
      rw [item, hx]
    rw [ChunkedFifo.read, hitem, ok_bind, offset_succ, ih (i + 1) (by omega), ok_bind,
      ← List.drop_eq_getElem_cons hi]

variable {f : ChunkedFifo T itemsPerChunk} {ls : List (List T)} {xs : List T}

/-- The elements of the first and of the last chunk are fewer than `2 ^ 32` together. -/
def Narrow (f : ChunkedFifo T itemsPerChunk) (xs : List T) : Prop :=
  xs.length < 2 ^ 32 + (f.chunks.length - 2) * itemsPerChunk.toNat

/-- The chunks of the fifo hold the lists. Those between the first and the last are full. -/
structure Rep (f : ChunkedFifo T itemsPerChunk) (ls : List (List T)) : Prop where
  power : ∃ k, itemsPerChunk.toNat = 2 ^ k
  chunks : List.Forall₂ (Holds itemsPerChunk) f.chunks ls
  middle : ∀ l ∈ ls.tail.dropLast, l.length = itemsPerChunk.toNat
  small : 2 ≤ ls.length → itemsPerChunk.toNat < 2 ^ 32
  nchunks : f.nchunks.toNat = ls.length
  nfree : f.nfreeChunks.toNat = f.freeChunks.length
  space : (ls.length + f.freeChunks.length) * itemsPerChunk.toNat < 2 ^ 64

/-- Every chunk has fewer than `2 ^ 32` elements. -/
def Countable (ls : List (List T)) : Prop := ∀ l ∈ ls, l.length < 2 ^ 32

theorem Rep.initial (hc : ∃ k, itemsPerChunk.toNat = 2 ^ k) :
    Rep ({} : ChunkedFifo T itemsPerChunk) [] where
  power := hc
  chunks := List.Forall₂.nil
  middle _ h := absurd h List.not_mem_nil
  small h := absurd h (Nat.not_succ_le_zero 1)
  nchunks := rfl
  nfree := rfl
  space := by
    show 0 * _ < _
    rw [Nat.zero_mul]
    decide

theorem Rep.pos (h : Rep f ls) : 0 < itemsPerChunk.toNat := by
  obtain ⟨k, hk⟩ := h.power
  rw [hk]
  exact Nat.two_pow_pos k

theorem Rep.length_eq (h : Rep f ls) : f.chunks.length = ls.length := h.chunks.length_eq

theorem Rep.empty_iff (h : Rep f ls) : f.empty = true ↔ ls.flatten = [] := by
  have hchunks := h.chunks
  rw [empty]
  generalize f.chunks = cs at hchunks
  cases hchunks with
  | nil => simp
  | cons hc _ => simpa using fun hl => absurd hl hc.nonempty

theorem tail_dropLast_concat (init : List (List T)) (l : List T) :
    (init ++ [l]).tail.dropLast = init.tail := by
  cases init with
  | nil => rfl
  | cons m init => exact List.dropLast_concat

theorem forall₂_concat {A B : Type} {R : A → B → Prop} {as : List A} {bs : List B} {b : B}
    (h : List.Forall₂ R as (bs ++ [b])) :
    ∃ as' a, as = as' ++ [a] ∧ List.Forall₂ R as' bs ∧ R a b := by
  induction bs generalizing as with
  | nil =>
    obtain ⟨a, as', hab, hnil, rfl⟩ := List.forall₂_cons_right_iff.mp h
    rw [List.forall₂_nil_right_iff.mp hnil]
    exact ⟨[], a, rfl, List.Forall₂.nil, hab⟩
  | cons d bs ih =>
    obtain ⟨a, as', had, hrest, rfl⟩ := List.forall₂_cons_right_iff.mp h
    obtain ⟨as'', a', rfl, hr, hab⟩ := ih hrest
    exact ⟨a :: as'', a', rfl, List.Forall₂.cons had hr, hab⟩

theorem forall₂_snoc {A B : Type} {R : A → B → Prop} {as : List A} {bs : List B} {a : A} {b : B}
    (h : List.Forall₂ R as bs) (hab : R a b) : List.Forall₂ R (as ++ [a]) (bs ++ [b]) :=
  List.rel_append h (List.Forall₂.cons hab List.Forall₂.nil)

/-- A list is empty or has a last element. -/
theorem nil_or_concat {A : Type} (as : List A) : as = [] ∨ ∃ init a, as = init ++ [a] := by
  rcases List.eq_nil_or_concat as with h | ⟨init, l, h⟩
  · exact Or.inl h
  · rw [List.concat_eq_append] at h
    exact Or.inr ⟨init, l, h⟩

/-- The length is that of the first and the last list, and of the full ones between them. -/
theorem Rep.length_flatten (h : Rep f ls) {m : List T} {init : List (List T)} {l : List T}
    (hls : ls = m :: (init ++ [l])) :
    ls.flatten.length = m.length + l.length + (ls.length - 2) * itemsPerChunk.toNat := by
  have hmid : ∀ k ∈ init, k.length = itemsPerChunk.toNat := by
    intro k hk
    apply h.middle
    rw [hls, List.tail_cons, List.dropLast_concat]
    exact hk
  have hsum : init.flatten.length = init.length * itemsPerChunk.toNat := by
    clear hls
    induction init with
    | nil => rw [List.length_nil, Nat.zero_mul, List.flatten_nil, List.length_nil]
    | cons k init ih =>
      rw [List.flatten_cons, List.length_append, hmid k List.mem_cons_self,
        ih fun k' hk' => hmid k' (List.mem_cons_of_mem _ hk'), List.length_cons, Nat.add_mul,
        Nat.one_mul, Nat.add_comm]
  have hlen : ls.length - 2 = init.length := by
    rw [hls]
    simp
  rw [hlen, hls, List.flatten_cons, List.flatten_append, List.length_append, List.length_append,
    hsum, List.flatten_singleton]
  omega

theorem flatten_length_le {cs : List (Chunk T)}
    (h : List.Forall₂ (Holds itemsPerChunk) cs ls) :
    ls.flatten.length ≤ ls.length * itemsPerChunk.toNat := by
  induction h with
  | nil => simp
  | cons hc _ ih =>
    rw [List.flatten_cons, List.length_append, List.length_cons, Nat.succ_mul, Nat.add_comm]
    exact Nat.add_le_add ih hc.fits

theorem mem_holds {cs : List (Chunk T)} (h : List.Forall₂ (Holds itemsPerChunk) cs ls)
    (hl : l ∈ ls) : ∃ c, Holds itemsPerChunk c l := by
  induction h with
  | nil => exact absurd hl List.not_mem_nil
  | cons hc _ ih =>
    rcases List.mem_cons.mp hl with rfl | hl
    · exact ⟨_, hc⟩
    · exact ih hl

/-- `size`: the elements of the first and the last chunk are counted modulo `2 ^ 32`. -/
theorem Rep.size_toNat (h : Rep f ls) : f.size.toNat =
    (ls.flatten.length - (ls.length - 2) * itemsPerChunk.toNat) % 2 ^ 32 +
      (ls.length - 2) * itemsPerChunk.toNat := by
  have hchunks := h.chunks
  have hn := h.nchunks
  have hlen := h.length_eq
  have hle := flatten_length_le hchunks
  have hspace := h.space
  rcases hcs : f.chunks with _ | ⟨c, _ | ⟨d, cs⟩⟩
  · rw [hcs] at hchunks
    rw [List.forall₂_nil_left_iff.mp hchunks]
    rw [size, hcs]
    simp
  · rw [hcs] at hchunks
    obtain ⟨l, ls', hc, hnil, rfl⟩ := List.forall₂_cons_left_iff.mp hchunks
    obtain rfl := List.forall₂_nil_left_iff.mp hnil
    rw [size, hcs]
    dsimp only
    rw [hc.count]
    simp
  · rw [hcs] at hchunks
    obtain ⟨m, ls', hc, hrest, rfl⟩ := List.forall₂_cons_left_iff.mp hchunks
    have hne : ls' ≠ [] := by
      rintro rfl
      exact List.cons_ne_nil _ _ (List.forall₂_nil_right_iff.mp hrest)
    obtain ⟨init, l, rfl⟩ := (nil_or_concat ls').resolve_left hne
    obtain ⟨cs', e, hcs', -, he⟩ := forall₂_concat hrest
    have hlast : cs.getLastD d = e := by
      rw [← List.getLastD_cons (a := c), hcs', List.getLastD_eq_getLast?, List.getLast?_concat]
      rfl
    have htot := h.length_flatten rfl
    have hnum : (f.nchunks - 2).toNat = init.length := by
      rw [UInt64.toNat_sub_of_le, hn]
      · simp
      · rw [UInt64.le_iff_toNat_le, hn]
        simp
    have hlen2 : (m :: (init ++ [l])).length - 2 = init.length := by simp
    rw [hlen2] at htot ⊢
    rw [size, hcs]
    dsimp only
    rw [hlast]
    have hcount : (c.end_ - c.begin + e.end_ - e.begin).toUInt64.toNat =
        (m.length + l.length) % 2 ^ 32 := by
      have hm : c.end_ - c.begin = UInt32.ofNat m.length := by
        rw [hc.end_, UInt32.add_comm, UInt32.add_sub_cancel]
      have hl : UInt32.ofNat m.length + e.end_ - e.begin =
          UInt32.ofNat (m.length + l.length) := by
        rw [he.end_, UInt32.add_comm e.begin, ← UInt32.add_assoc, UInt32.add_sub_cancel,
          ← UInt32.ofNat_add]
      rw [hm, hl, UInt32.toNat_toUInt64, UInt32.toNat_ofNat']
    have hmul : init.length * itemsPerChunk.toNat ≤ (m :: (init ++ [l])).flatten.length := by omega
    have htotal : (m :: (init ++ [l])).flatten.length < 2 ^ 64 := by
      refine Nat.lt_of_le_of_lt (Nat.le_trans hle ?_) hspace
      exact Nat.mul_le_mul_right _ (Nat.le_add_right _ _)
    have hmod := Nat.mod_le (m.length + l.length) (2 ^ 32)
    have hprod : ((f.nchunks - 2) * itemsPerChunk).toNat = init.length * itemsPerChunk.toNat := by
      rw [UInt64.toNat_mul, hnum, Nat.mod_eq_of_lt (by omega)]
    rw [UInt64.toNat_add, hcount, hprod, Nat.mod_eq_of_lt (by omega), htot, Nat.add_sub_cancel]

/-- `size` is the number of elements exactly when the first and the last chunk have fewer than
`2 ^ 32`. -/
theorem Rep.size_iff (h : Rep f ls) :
    f.size.toNat = ls.flatten.length ↔ Narrow f ls.flatten := by
  have hM : (ls.length - 2) * itemsPerChunk.toNat ≤ ls.flatten.length := by
    rcases nil_or_concat ls with hnil | ⟨init, l, hls⟩
    · rw [hnil]
      simp
    · cases init with
      | nil =>
        rw [hls]
        simp
      | cons m init =>
        rw [List.cons_append] at hls
        have := h.length_flatten hls
        omega
  rw [h.size_toNat, Narrow, h.length_eq]
  have hlt := Nat.mod_lt (ls.flatten.length - (ls.length - 2) * itemsPerChunk.toNat)
    (Nat.two_pow_pos 32)
  constructor
  · intro heq
    omega
  · intro hn
    rw [Nat.mod_eq_of_lt (by omega)]
    omega

theorem Rep.countable (h : Rep f ls) (hn : Narrow f ls.flatten) : Countable ls := by
  intro l hl
  rw [Narrow, h.length_eq] at hn
  by_cases htwo : 2 ≤ ls.length
  · have hsmall := h.small htwo
    have hfits : l.length ≤ itemsPerChunk.toNat := by
      obtain ⟨c, hc⟩ := mem_holds h.chunks hl
      exact hc.fits
    omega
  · have hzero : ls.length - 2 = 0 := by omega
    rw [hzero, Nat.zero_mul, Nat.add_zero] at hn
    have hsub := (List.sublist_flatten_of_mem hl).length_le
    omega

end ChunkedFifo

end Seastar
