import Seastar.Core.ChunkedFifoContents

/-!
The operations of a `chunked_fifo` on what it holds: a push at the last chunk, a pop at
the first, and the chunks that are kept for later.
-/

namespace Seastar

open Lib

variable {T : Type} {itemsPerChunk : UInt64}

namespace ChunkedFifo

variable {f g : ChunkedFifo T itemsPerChunk} {ls init : List (List T)} {l xs : List T} {x : T}

/-! ## The end -/

/-- The fifo has a new last chunk, without elements yet. -/
structure Added (f : ChunkedFifo T itemsPerChunk) (ls : List (List T))
    (g : ChunkedFifo T itemsPerChunk) : Prop where
  chunks : ∃ items, g.chunks = f.chunks ++ [{ items := items }]
  nchunks : g.nchunks = f.nchunks + 1
  nfree : g.nfreeChunks.toNat = g.freeChunks.length
  space : (ls.length + 1 + g.freeChunks.length) * itemsPerChunk.toNat < 2 ^ 64
  full : ∀ l ∈ ls.tail, l.length = itemsPerChunk.toNat
  small : ls ≠ [] → itemsPerChunk.toNat < 2 ^ 32

theorem Rep.backChunkNew (h : Rep f ls) (hfull : ∀ l ∈ ls.tail, l.length = itemsPerChunk.toNat)
    (hsmall : ls ≠ [] → itemsPerChunk.toNat < 2 ^ 32) (fails : Bool) :
    (∃ g, f.backChunkNew fails = (true, g) ∧ Rep g ls) ∨
      ∃ g, f.backChunkNew fails = (false, g) ∧ Added f ls g := by
  have hspace := h.space
  have hnfree := h.nfree
  rcases hfree : f.freeChunks with _ | ⟨c, rest⟩
  · rw [hfree] at hnfree hspace
    rw [ChunkedFifo.backChunkNew, hfree]
    dsimp only
    split
    · exact Or.inl ⟨_, rfl, h.power, h.chunks, h.middle, h.small, h.nchunks, hnfree, hspace⟩
    · rename_i hroom
      rw [Bool.or_eq_true, not_or, noSpace, decide_eq_true_eq, Nat.not_le, h.length_eq, hfree]
        at hroom
      exact Or.inr ⟨_, rfl, ⟨_, rfl⟩, rfl, hnfree, by simpa using hroom.2, hfull, hsmall⟩
  · rw [ChunkedFifo.backChunkNew, hfree]
    rw [hfree, List.length_cons] at hnfree hspace
    refine Or.inr ⟨_, rfl, ⟨c.items, rfl⟩, rfl, ?_, ?_, hfull, hsmall⟩
    · show (f.nfreeChunks - 1).toNat = rest.length
      rw [UInt64.toNat_sub_of_le, hnfree]
      · rfl
      · rw [UInt64.le_iff_toNat_le, hnfree]
        exact Nat.succ_le_succ (Nat.zero_le _)
    · show (ls.length + 1 + rest.length) * _ < _
      rwa [Nat.add_assoc, Nat.add_comm 1]

/-- The chunk at the end. -/
theorem Rep.last (h : Rep f (init ++ [l])) :
    ∃ cs c, f.chunks = cs ++ [c] ∧ List.Forall₂ (Holds itemsPerChunk) cs init ∧
      Holds itemsPerChunk c l := forall₂_concat h.chunks

theorem Rep.ensureRoomBack_nil (h : Rep f []) (fails : Bool) :
    f.ensureRoomBack fails = f.backChunkNew fails := by
  have hnil : f.chunks = [] := List.forall₂_nil_right_iff.mp h.chunks
  rw [ensureRoomBack, hnil]
  rfl

theorem Rep.ensureRoomBack_room (h : Rep f (init ++ [l])) (hlt : l.length < 2 ^ 32)
    (hroom : l.length < itemsPerChunk.toNat) (fails : Bool) :
    f.ensureRoomBack fails = (false, f) := by
  obtain ⟨cs, c, hcs, -, hc⟩ := h.last
  rw [ensureRoomBack, hcs, List.getLast?_concat]
  dsimp only
  rw [if_neg (mt (hc.count_eq_iff hlt).mp (Nat.ne_of_lt hroom))]

theorem Rep.ensureRoomBack_full (h : Rep f (init ++ [l])) (hlt : l.length < 2 ^ 32)
    (hfull : l.length = itemsPerChunk.toNat) (fails : Bool) :
    f.ensureRoomBack fails = f.backChunkNew fails := by
  obtain ⟨cs, c, hcs, -, hc⟩ := h.last
  rw [ensureRoomBack, hcs, List.getLast?_concat]
  dsimp only
  rw [if_pos ((hc.count_eq_iff hlt).mpr hfull)]

theorem Rep.length_le (h : Rep f ls) (hl : l ∈ ls) : l.length ≤ itemsPerChunk.toNat := by
  obtain ⟨c, hc⟩ := mem_holds h.chunks hl
  exact hc.fits

/-- When the last chunk is full, so are all but the first. -/
theorem Rep.tail_full (h : Rep f (init ++ [l])) (hfull : l.length = itemsPerChunk.toNat) :
    ∀ k ∈ (init ++ [l]).tail, k.length = itemsPerChunk.toNat := by
  have hmiddle := h.middle
  rw [tail_dropLast_concat] at hmiddle
  intro k hk
  cases init with
  | nil => exact absurd hk List.not_mem_nil
  | cons m init =>
    rcases List.mem_append.mp hk with hk | hk
    · exact hmiddle k hk
    · rw [List.mem_singleton.mp hk, hfull]

/-- `ensure_room_back` throws, or there is room in the last chunk, or it is a new one. -/
theorem Rep.ensureRoomBack (h : Rep f ls) (hn : Countable ls) (fails : Bool) :
    (∃ g, f.ensureRoomBack fails = (true, g) ∧ Rep g ls) ∨
      (f.ensureRoomBack fails = (false, f) ∧
        ∃ init l, ls = init ++ [l] ∧ l.length < itemsPerChunk.toNat) ∨
      ∃ g, f.ensureRoomBack fails = (false, g) ∧ Added f ls g := by
  rcases nil_or_concat ls with rfl | ⟨init, l, rfl⟩
  · rw [h.ensureRoomBack_nil]
    rcases h.backChunkNew (by simp) (absurd rfl) fails with hg | hg
    · exact Or.inl hg
    · exact Or.inr (Or.inr hg)
  · have hlt : l.length < 2 ^ 32 := hn l (by simp)
    rcases Nat.lt_or_eq_of_le (h.length_le (l := l) (by simp)) with hroom | hfull
    · rw [h.ensureRoomBack_room hlt hroom]
      exact Or.inr (Or.inl ⟨rfl, init, l, rfl, hroom⟩)
    · rw [h.ensureRoomBack_full hlt hfull]
      rcases h.backChunkNew (h.tail_full hfull) (fun _ => hfull ▸ hlt) fails with hg | hg
      · exact Or.inl hg
      · exact Or.inr (Or.inr hg)

/-- The fifo after `++_back_chunk->end`, with the element constructed. -/
def put (x : T) (f : ChunkedFifo T itemsPerChunk) : ChunkedFifo T itemsPerChunk :=
  { f with
    chunks := f.chunks.dropLast ++ (f.chunks.getLast?.map (constructBack itemsPerChunk x)).toList }

/-- A push into a chunk with room. -/
theorem Rep.put (h : Rep f (init ++ [l])) (hroom : l.length < itemsPerChunk.toNat)
    (hlt : l.length < 2 ^ 32) (x : T) : Rep (f.put x) (init ++ [l ++ [x]]) := by
  obtain ⟨k, hk⟩ := h.power
  obtain ⟨cs, c, hcs, hinit, hc⟩ := h.last
  have hlen : (init ++ [l ++ [x]]).length = (init ++ [l]).length := by simp
  have hmiddle := h.middle
  constructor
  · exact h.power
  · rw [ChunkedFifo.put, hcs, List.dropLast_concat, List.getLast?_concat]
    exact forall₂_snoc hinit (hc.construct hk hroom hlt x)
  · rw [tail_dropLast_concat] at hmiddle ⊢
    exact hmiddle
  · rw [hlen]
    exact h.small
  · rw [hlen]
    exact h.nchunks
  · exact h.nfree
  · rw [hlen]
    exact h.space

/-- A push into a new chunk. -/
theorem Added.put (hg : Added f ls g) (h : Rep f ls) (x : T) : Rep (g.put x) (ls ++ [[x]]) := by
  obtain ⟨items, hcs⟩ := hg.chunks
  have hspace := hg.space
  have hpos := h.pos
  have hlt : ls.length + 1 < 2 ^ 64 := by
    apply Nat.lt_of_le_of_lt _ hspace
    exact Nat.le_trans (Nat.le_add_right _ _) (Nat.le_mul_of_pos_right _ hpos)
  constructor
  · exact h.power
  · rw [ChunkedFifo.put, hcs, List.dropLast_concat, List.getLast?_concat]
    exact forall₂_snoc h.chunks (Holds.constructFirst hpos items x)
  · rw [tail_dropLast_concat]
    exact hg.full
  · intro hlen
    apply hg.small
    rintro rfl
    exact absurd hlen (by simp)
  · show g.nchunks.toNat = _
    rw [hg.nchunks, UInt64.toNat_add, h.nchunks, List.length_append, List.length_singleton]
    exact Nat.mod_eq_of_lt hlt
  · exact hg.nfree
  · rw [List.length_append, List.length_singleton]
    exact hspace

/-- `undo_room_back` after a new chunk. -/
theorem Added.undoRoomBack (hg : Added f ls g) (h : Rep f ls) : Rep g.undoRoomBack ls := by
  obtain ⟨items, hcs⟩ := hg.chunks
  have hn : g.nchunks - 1 = f.nchunks := by
    rw [hg.nchunks, UInt64.add_sub_cancel]
  have hchunks : (if f.nchunks = 0 then [] else f.chunks) = f.chunks := by
    split
    · rename_i hzero
      have hlen := h.nchunks
      rw [hzero, ← h.length_eq] at hlen
      exact (List.eq_nil_of_length_eq_zero hlen.symm).symm
    · rfl
  rw [ChunkedFifo.undoRoomBack, hcs, List.getLast?_concat]
  dsimp only
  rw [if_pos rfl, List.dropLast_concat, hn, hchunks]
  refine ⟨h.power, h.chunks, h.middle, h.small, h.nchunks, hg.nfree, ?_⟩
  apply Nat.lt_of_le_of_lt _ hg.space
  exact Nat.mul_le_mul_right _ (Nat.add_le_add_right (Nat.le_succ _) _)

/-- `undo_room_back` when the last chunk has elements. -/
theorem Rep.undoRoomBack (h : Rep f (init ++ [l])) (hlt : l.length < 2 ^ 32) :
    f.undoRoomBack = f := by
  obtain ⟨cs, c, hcs, -, hc⟩ := h.last
  rw [ChunkedFifo.undoRoomBack, hcs, List.getLast?_concat]
  dsimp only
  rw [if_neg (hc.begin_ne hlt)]

/-- `emplace_back`: the element is the last one, unless an exception is thrown. -/
theorem Rep.emplaceBack (h : Rep f ls) (hn : Countable ls) (fails : Bool) (x : Option T) :
    ∃ thrown g ls', f.emplaceBack fails x = (thrown, g) ∧ Rep g ls' ∧
      ls'.flatten = if thrown then ls.flatten else ls.flatten ++ x.toList := by
  rw [ChunkedFifo.emplaceBack]
  rcases h.ensureRoomBack hn fails with ⟨g, he, hg⟩ | ⟨he, init, l, rfl, hroom⟩ | ⟨g, he, hg⟩
  · rw [he]
    exact ⟨true, g, ls, rfl, hg, rfl⟩
  · have hlt : l.length < 2 ^ 32 := hn l (by simp)
    rw [he]
    cases x with
    | none =>
      dsimp only
      rw [h.undoRoomBack hlt]
      exact ⟨true, f, _, rfl, h, rfl⟩
    | some x =>
      refine ⟨false, f.put x, _, rfl, h.put hroom hlt x, ?_⟩
      simp
  · rw [he]
    cases x with
    | none => exact ⟨true, _, ls, rfl, hg.undoRoomBack h, rfl⟩
    | some x =>
      refine ⟨false, g.put x, _, rfl, hg.put h x, ?_⟩
      simp

/-! ## The front -/

/-- The first chunk is gone, and may wait among the free ones. -/
theorem Rep.frontChunkDelete (h : Rep f (l :: ls)) (c : Chunk T) :
    Rep (f.frontChunkDelete c) ls := by
  obtain ⟨d, ds, -, hds, hcs⟩ := List.forall₂_cons_right_iff.mp h.chunks
  have hnchunks := h.nchunks
  have hnfree := h.nfree
  have hspace := h.space
  have hpos := h.pos
  rw [List.length_cons] at hnchunks hspace
  have hmiddle : ∀ k ∈ ls.tail.dropLast, k.length = itemsPerChunk.toNat := by
    intro k hk
    apply h.middle
    rw [List.tail_cons]
    rw [← List.tail_dropLast] at hk
    exact List.mem_of_mem_tail hk
  have hsmall : 2 ≤ ls.length → itemsPerChunk.toNat < 2 ^ 32 := by
    intro hlen
    exact h.small (Nat.le_succ_of_le hlen)
  have hn : (f.nchunks - 1).toNat = ls.length := by
    rw [UInt64.toNat_sub_of_le, hnchunks]
    · rfl
    · rw [UInt64.le_iff_toNat_le, hnchunks]
      exact Nat.succ_le_succ (Nat.zero_le _)
  rw [ChunkedFifo.frontChunkDelete, hcs]
  split
  · have hlt : f.freeChunks.length + 1 < 2 ^ 64 := by
      apply Nat.lt_of_le_of_lt _ hspace
      apply Nat.le_trans _ (Nat.le_mul_of_pos_right _ hpos)
      omega
    refine ⟨h.power, hds, hmiddle, hsmall, hn, ?_, ?_⟩
    · show (f.nfreeChunks + 1).toNat = f.freeChunks.length + 1
      rw [UInt64.toNat_add, hnfree]
      exact Nat.mod_eq_of_lt hlt
    · show (ls.length + (f.freeChunks.length + 1)) * _ < _
      rwa [← Nat.add_right_comm, Nat.add_assoc] at hspace
  · refine ⟨h.power, hds, hmiddle, hsmall, hn, hnfree, ?_⟩
    apply Nat.lt_of_le_of_lt _ hspace
    exact Nat.mul_le_mul_right _ (Nat.add_le_add_right (Nat.le_succ _) _)

/-- `pop_front`. -/
theorem Rep.popFront (h : Rep f ((x :: l) :: ls)) (hlt : (x :: l).length < 2 ^ 32) :
    ∃ g, f.popFront = .ok g ∧ Rep g (if l = [] then ls else l :: ls) := by
  obtain ⟨k, hk⟩ := h.power
  obtain ⟨c, cs, hc, hrest, hcs⟩ := List.forall₂_cons_right_iff.mp h.chunks
  rw [ChunkedFifo.popFront, hcs]
  dsimp only
  rw [hc.item_front, ok_bind]
  by_cases hl : l = []
  · rw [if_pos ((hc.popped_iff hlt).mpr hl), if_pos hl]
    exact ⟨_, rfl, h.frontChunkDelete _⟩
  · rw [if_neg (mt (hc.popped_iff hlt).mp hl), if_neg hl]
    exact ⟨_, rfl, h.power, List.Forall₂.cons (hc.pop hk hl) hrest, h.middle, h.small, h.nchunks,
      h.nfree, h.space⟩

theorem Rep.nil_of_flatten (h : Rep f ls) (hnil : ls.flatten = []) : ls = [] := by
  have hempty := h.empty_iff.mpr hnil
  rw [empty, List.isEmpty_iff] at hempty
  apply List.eq_nil_of_length_eq_zero
  rw [← h.length_eq, hempty]
  rfl

/-- The first element is that of the first chunk. -/
theorem Rep.exists_cons (h : Rep f ls) (hxs : ls.flatten = x :: xs) :
    ∃ l ls', ls = (x :: l) :: ls' ∧ xs = l ++ ls'.flatten := by
  cases ls with
  | nil => cases hxs
  | cons k ls' =>
    obtain ⟨c, cs, hc, -, -⟩ := List.forall₂_cons_right_iff.mp h.chunks
    cases k with
    | nil => exact absurd rfl hc.nonempty
    | cons y l =>
      rw [List.flatten_cons, List.cons_append] at hxs
      obtain ⟨rfl, rfl⟩ := List.cons.inj hxs
      exact ⟨l, ls', rfl, rfl⟩

/-- ... and goes when it is popped. -/
theorem Rep.popFront_flatten (h : Rep f ls) (hn : Countable ls) (hxs : ls.flatten = x :: xs) :
    ∃ g ls', f.popFront = .ok g ∧ Rep g ls' ∧ ls'.flatten = xs ∧ Countable ls' := by
  obtain ⟨l, ls', rfl, rfl⟩ := h.exists_cons hxs
  obtain ⟨g, he, hg⟩ := h.popFront (hn _ List.mem_cons_self)
  refine ⟨g, _, he, hg, ?_, ?_⟩
  · split
    · rename_i hl
      rw [hl]
      rfl
    · rfl
  · intro k hk
    split at hk
    · exact hn k (List.mem_cons_of_mem _ hk)
    · rcases List.mem_cons.mp hk with rfl | hk
      · exact Nat.lt_of_succ_lt (hn _ List.mem_cons_self)
      · exact hn k (List.mem_cons_of_mem _ hk)

/-- The loop of `clear` ends with no chunk. -/
theorem Rep.popAll (h : Rep f ls) (hn : Countable ls) {fuel : Nat}
    (hfuel : ls.flatten.length ≤ fuel) : ∃ g, popAll fuel f = .ok g ∧ Rep g [] := by
  induction fuel generalizing f ls with
  | zero =>
    obtain rfl := h.nil_of_flatten (List.eq_nil_of_length_eq_zero (Nat.le_zero.mp hfuel))
    exact ⟨f, rfl, h⟩
  | succ fuel ih =>
    rw [ChunkedFifo.popAll]
    rcases hxs : ls.flatten with _ | ⟨x, xs⟩
    · rw [if_pos (h.empty_iff.mpr hxs)]
      obtain rfl := h.nil_of_flatten hxs
      exact ⟨f, rfl, h⟩
    · have hne : ¬f.empty = true := by
        rw [h.empty_iff, hxs]
        exact List.cons_ne_nil x xs
      obtain ⟨g, ls', he, hg, hrest, hn'⟩ := h.popFront_flatten hn hxs
      rw [if_neg hne, he, ok_bind]
      apply ih hg hn'
      rw [hrest]
      rw [hxs] at hfuel
      exact Nat.le_of_succ_le_succ hfuel

theorem pops_eq {cs : List (Chunk T)} (h : List.Forall₂ (Holds itemsPerChunk) cs ls)
    (hn : Countable ls) : pops cs = ls.flatten.length := by
  induction h with
  | nil => rfl
  | cons hc _ ih =>
    have hlt := hn _ List.mem_cons_self
    have hcount := hc.count
    rw [UInt32.toNat_toUInt64, Nat.mod_eq_of_lt hlt] at hcount
    have hrest := ih fun k hk => hn k (List.mem_cons_of_mem _ hk)
    rw [pops] at hrest
    rw [pops, List.map_cons, List.sum_cons, if_neg (hc.begin_ne hlt), hcount, hrest,
      List.flatten_cons, List.length_append]

/-- `clear`. -/
theorem Rep.clear (h : Rep f ls) (hn : Countable ls) : ∃ g, f.clear = .ok g ∧ Rep g [] :=
  h.popAll hn (Nat.le_of_eq (pops_eq h.chunks hn).symm)

/-! ## The free chunks -/

theorem Rep.shrinkToFit (h : Rep f ls) : Rep f.shrinkToFit ls where
  power := h.power
  chunks := h.chunks
  middle := h.middle
  small := h.small
  nchunks := h.nchunks
  nfree := rfl
  space := Nat.lt_of_le_of_lt (Nat.mul_le_mul_right _ (Nat.le_add_right _ _)) h.space

/-- The loop of `reserve` adds free chunks, whether it throws or not. -/
theorem Rep.allocateFree (h : Rep f ls) (needed available : Nat) :
    Rep (allocateFree needed available f).2 ls := by
  induction needed generalizing available f with
  | zero => exact h
  | succ needed ih =>
    cases available with
    | zero => exact ⟨h.power, h.chunks, h.middle, h.small, h.nchunks, h.nfree, h.space⟩
    | succ available =>
      rw [ChunkedFifo.allocateFree]
      split
      · exact ⟨h.power, h.chunks, h.middle, h.small, h.nchunks, h.nfree, h.space⟩
      · rename_i hroom
        rw [noSpace, decide_eq_true_eq, Nat.not_le, h.length_eq] at hroom
        apply ih
        refine ⟨h.power, h.chunks, h.middle, h.small, h.nchunks, ?_, hroom⟩
        show (f.nfreeChunks + 1).toNat = f.freeChunks.length + 1
        rw [UInt64.toNat_add, h.nfree]
        have hlt : f.freeChunks.length + 1 < 2 ^ 64 := by
          apply Nat.lt_of_le_of_lt _ hroom
          apply Nat.le_trans _ (Nat.le_mul_of_pos_right _ h.pos)
          omega
        exact Nat.mod_eq_of_lt hlt

/-- `reserve`. -/
theorem Rep.reserve (h : Rep f ls) (available : Nat) (n : UInt64) :
    Rep (f.reserve available n).2 ls := h.allocateFree _ available

end ChunkedFifo

end Seastar
