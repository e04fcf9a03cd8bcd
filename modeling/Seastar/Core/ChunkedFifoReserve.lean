import Seastar.Core.ChunkedFifoRuns

/-!
What `reserve` promises: it allocates the chunks that are needed, and no push after it
allocates one while the elements are not more than were reserved. A chunk that is popped
empty is freed when another free one is kept, and free chunks are not counted on the way,
so that only one chunk is safe.
-/

namespace Seastar

open Lib

variable {T : Type} {itemsPerChunk : UInt64}

namespace ChunkedFifo

/-- The elements of the last chunk. -/
def inLast (f : ChunkedFifo T itemsPerChunk) : Nat :=
  match f.chunks.getLast? with
  | none => 0
  | some back => (back.end_ - back.begin).toNat

/-- The elements for which the last chunk has room. -/
def room (f : ChunkedFifo T itemsPerChunk) : Nat :=
  match f.chunks.getLast? with
  | none => 0
  | some _ => itemsPerChunk.toNat - f.inLast

/-- The chunks that are missing for `n` elements in all. -/
def chunksMissing (s : ChunkedFifo T itemsPerChunk × List T) (n : Nat) : Nat :=
  (n - s.2.length - s.1.room + itemsPerChunk.toNat - 1) / itemsPerChunk.toNat -
    s.1.freeChunks.length

/-- Pushes and pops that keep at most `n` elements in the fifo, with or without constructors that
throw. -/
def Keeps (throws : Bool) (n : Nat) (s : ChunkedFifo T itemsPerChunk × List T) : Action T → Prop
  | .emplaceBack _ x => s.2.length < n ∧ (throws = false → x.isSome)
  | .popFront => s.2 ≠ []
  | _ => False

instance (throws : Bool) (n : Nat) (s : ChunkedFifo T itemsPerChunk × List T) (a : Action T) :
    Decidable (Keeps throws n s a) :=
  match a with
  | .emplaceBack _ x => inferInstanceAs (Decidable (s.2.length < n ∧ (throws = false → x.isSome)))
  | .popFront => inferInstanceAs (Decidable (s.2 ≠ []))
  | .clear | .move | .movedFrom | .reserve _ _ | .shrinkToFit => inferInstanceAs (Decidable False)

/-- `reserve` allocates the chunks that are missing, when they can be had, and afterwards no push or
pop allocates one while there are at most `n` elements. -/
def Promise (throws : Bool) (s : ChunkedFifo T itemsPerChunk × List T) (n : UInt64) : Prop :=
  ∀ available, chunksMissing s n.toNat ≤ available →
    ∃ g, s.1.reserve available n = (false, g) ∧
      g.allocations = s.1.allocations + chunksMissing s n.toNat ∧
      ∀ as s', Run.Along step (Keeps throws n.toNat) (g, s.2) as → run (g, s.2) as = .ok s' →
        s'.1.allocations = g.allocations

variable {f g : ChunkedFifo T itemsPerChunk} {ls init : List (List T)} {l xs : List T} {x : T}

theorem Rep.inLast (h : Rep f (init ++ [l])) (hlt : l.length < 2 ^ 32) : f.inLast = l.length := by
  obtain ⟨cs, c, hcs, -, hc⟩ := h.last
  have hcount := hc.count
  rw [UInt32.toNat_toUInt64, Nat.mod_eq_of_lt hlt] at hcount
  rw [ChunkedFifo.inLast, hcs, List.getLast?_concat]
  exact hcount

theorem Rep.room (h : Rep f (init ++ [l])) (hlt : l.length < 2 ^ 32) :
    f.room = itemsPerChunk.toNat - l.length := by
  obtain ⟨cs, c, hcs, -, -⟩ := h.last
  rw [ChunkedFifo.room, h.inLast hlt, hcs, List.getLast?_concat]

/-! ## What an operation allocates -/

theorem popFront_allocations (h : f.popFront = .ok g) : g.allocations = f.allocations := by
  rw [popFront] at h
  split at h
  · cases h
  · obtain ⟨x, -, h⟩ := bind_ok.mp h
    dsimp only at h
    split at h
    · obtain rfl := Except.ok.inj h
      rw [frontChunkDelete]
      split <;> rfl
    · obtain rfl := Except.ok.inj h
      rfl

/-- A chunk that is free is taken. -/
theorem backChunkNew_cons {c : Chunk T} {rest : List (Chunk T)} (hfree : f.freeChunks = c :: rest)
    (fails : Bool) : ∃ g, f.backChunkNew fails = (false, g) ∧ g.freeChunks = rest ∧
      g.allocations = f.allocations := by
  rw [backChunkNew, hfree]
  exact ⟨_, rfl, rfl, rfl⟩

/-- Without one the allocator is asked. -/
theorem backChunkNew_nil (hfree : f.freeChunks = []) :
    f.backChunkNew true = (true, { f with allocations := f.allocations + 1 }) := by
  rw [backChunkNew, hfree]
  rfl

theorem undoRoomBack_free (f : ChunkedFifo T itemsPerChunk) :
    f.undoRoomBack.freeChunks = f.freeChunks ∧ f.undoRoomBack.allocations = f.allocations := by
  rw [undoRoomBack]
  split
  · exact ⟨rfl, rfl⟩
  · split <;> exact ⟨rfl, rfl⟩

/-- A chunk popped empty is kept unless there is a free one. -/
theorem Rep.frontChunkDelete_free (h : Rep f ls) (c : Chunk T) :
    (f.frontChunkDelete c).freeChunks =
      if f.freeChunks.length < 1 then c :: f.freeChunks else f.freeChunks := by
  have hfree : f.nfreeChunks < saveFreeChunks ↔ f.freeChunks.length < 1 := by
    rw [UInt64.lt_iff_toNat_lt, h.nfree]
    rfl
  rw [ChunkedFifo.frontChunkDelete]
  by_cases hlt : f.freeChunks.length < 1
  · rw [if_pos (hfree.mpr hlt), if_pos hlt]
  · rw [if_neg (mt hfree.mp hlt), if_neg hlt]

/-- The pop of the last element of a chunk. -/
theorem Rep.popFront_last (h : Rep f ([x] :: ls)) :
    ∃ c, f.popFront = .ok (f.frontChunkDelete c) ∧ Rep (f.frontChunkDelete c) ls := by
  obtain ⟨c, cs, hc, -, hcs⟩ := List.forall₂_cons_right_iff.mp h.chunks
  rw [ChunkedFifo.popFront, hcs]
  dsimp only
  rw [hc.item_front, ok_bind,
    if_pos ((hc.popped_iff (Nat.one_lt_pow (by decide) (by decide))).mpr rfl)]
  exact ⟨_, rfl, h.frontChunkDelete _⟩

/-- The push into an empty fifo with a free chunk. -/
theorem Rep.emplaceBack_free (h : Rep f []) {c : Chunk T} {rest : List (Chunk T)}
    (hfree : f.freeChunks = c :: rest) (fails : Bool) (x : T) :
    ∃ g, f.emplaceBack fails (some x) = (false, g) ∧ Rep g [[x]] ∧ g.freeChunks = rest ∧
      g.allocations = f.allocations := by
  obtain ⟨g, he, hrest, hall⟩ := backChunkNew_cons hfree fails
  rw [ChunkedFifo.emplaceBack, h.ensureRoomBack_nil, he]
  rcases h.backChunkNew (by simp) (absurd rfl) fails with ⟨g', he', -⟩ | ⟨g', he', hg⟩
  · cases he.symm.trans he'
  · obtain rfl := (Prod.mk.inj (he.symm.trans he')).2
    exact ⟨_, rfl, hg.put h x, hrest, hall⟩

/-! ## One chunk is enough -/

/-- No chunk is needed for `n` elements: there is a free one, or fewer than `n` elements are not in
the last chunk. -/
def Covered (n : Nat) (s : ChunkedFifo T itemsPerChunk × List T) : Prop :=
  ∃ ls, Rep s.1 ls ∧ ls.flatten = s.2 ∧ (ls = [] → 0 < n → s.1.freeChunks ≠ []) ∧
    ∀ l ∈ ls.getLast?, s.2.length < l.length + n

theorem length_le_flatten (init : List (List T)) (l : List T) :
    l.length ≤ (init ++ [l]).flatten.length := by
  simp

/-- A push. -/
theorem Covered.push {n : Nat} (h : Covered n (f, xs)) (hsmall : itemsPerChunk.toNat ≤ 2 ^ 30)
    (hfits : n ≤ itemsPerChunk.toNat) (hroom : xs.length < n) (fails : Bool) (x : T) :
    ∃ g, f.emplaceBack fails (some x) = (false, g) ∧ Covered n (g, xs ++ [x]) ∧
      g.allocations = f.allocations := by
  obtain ⟨ls, hrep, rfl, hfree, hlast⟩ := h
  rcases nil_or_concat ls with rfl | ⟨init, l, rfl⟩
  · obtain ⟨c, rest, hcs⟩ := List.exists_cons_of_ne_nil (hfree rfl (Nat.zero_lt_of_lt hroom))
    obtain ⟨g, he, hg, -, hall⟩ := hrep.emplaceBack_free hcs fails x
    refine ⟨g, he, ⟨[[x]], hg, rfl, fun hnil => absurd hnil (by simp), ?_⟩, hall⟩
    intro l hl
    obtain rfl := Option.some.inj hl
    exact Nat.lt_add_of_pos_right (Nat.zero_lt_of_lt hroom)
  · have hle := length_le_flatten init l
    have hlast' := hlast l (by simp)
    dsimp only at hroom hlast'
    have hlt : l.length < itemsPerChunk.toNat := by omega
    have hwide : l.length < 2 ^ 32 := by omega
    rw [emplaceBack, hrep.ensureRoomBack_room hwide hlt]
    refine ⟨_, rfl, ⟨init ++ [l ++ [x]], hrep.put hlt hwide x, by simp, by simp, ?_⟩, rfl⟩
    intro k hk
    rw [List.getLast?_concat] at hk
    obtain rfl := Option.some.inj hk
    rw [List.length_append, List.length_append]
    omega

/-- A pop. -/
theorem Covered.pop {n : Nat} (h : Covered n (f, x :: xs))
    (hsmall : itemsPerChunk.toNat ≤ 2 ^ 30) :
    ∃ g, f.popFront = .ok g ∧ Covered n (g, xs) ∧ g.allocations = f.allocations := by
  obtain ⟨ls, hrep, hls, hfree, hlast⟩ := h
  obtain ⟨l, ls, rfl, rfl⟩ := hrep.exists_cons hls
  have hlen := hrep.length_le List.mem_cons_self
  have hlt : (x :: l).length < 2 ^ 32 := by omega
  by_cases hl : l = []
  · subst hl
    obtain ⟨c, he, hg⟩ := hrep.popFront_last
    refine ⟨_, he, ⟨ls, hg, rfl, fun _ _ => ?_, ?_⟩, popFront_allocations he⟩
    · rw [hrep.frontChunkDelete_free]
      split
      · exact List.cons_ne_nil _ _
      · rename_i hne
        intro hnil
        exact hne (Nat.lt_one_iff.mpr (congrArg List.length hnil))
    · intro k hk
      have hlast' := hlast k (by
        rw [List.getLast?_cons, hk]
        rfl)
      exact Nat.lt_of_succ_lt hlast'
  · obtain ⟨g, he, hg⟩ := hrep.popFront hlt
    rw [if_neg hl] at hg
    refine ⟨g, he, ⟨l :: ls, hg, rfl, fun hnil => absurd hnil (List.cons_ne_nil _ _), ?_⟩,
      popFront_allocations he⟩
    intro k hk
    cases ls with
    | nil =>
      obtain rfl := Option.some.inj hk
      have hlast' := hlast (x :: l) rfl
      simp at hlast' ⊢
      omega
    | cons m ls =>
      have hlast' := hlast k hk
      exact Nat.lt_of_succ_lt hlast'

/-- Nothing is allocated while one chunk is enough. -/
theorem Covered.run {n : Nat} (hsmall : itemsPerChunk.toNat ≤ 2 ^ 30)
    (hfits : n ≤ itemsPerChunk.toNat) {throws : Bool} (hthrows : throws = true → n = 0)
    {s s' : ChunkedFifo T itemsPerChunk × List T} (h : Covered n s) {as : List (Action T)}
    (hk : Run.Along step (Keeps throws n) s as) (hr : ChunkedFifo.run s as = .ok s') :
    s'.1.allocations = s.1.allocations := by
  have hinv := Run.run_inv (I := fun t => Covered n t ∧ t.1.allocations = s.1.allocations)
    ?_ ⟨h, rfl⟩ hk hr
  · exact hinv.2
  · rintro ⟨f, xs⟩ a s' ⟨hc, hall⟩ hka hs
    cases a with
    | emplaceBack fails x =>
      cases x with
      | none =>
        have htrue : throws = true := by
          cases throws with
          | true => rfl
          | false => exact absurd (hka.2 rfl) Bool.false_ne_true
        rw [hthrows htrue] at hka
        exact absurd hka.1 (Nat.not_lt_zero _)
      | some x =>
        obtain ⟨g, he, hg, hall'⟩ := hc.push hsmall hfits hka.1 fails x
        rw [ChunkedFifo.step, operate, he] at hs
        obtain rfl := Except.ok.inj hs
        exact ⟨hg, hall'.trans hall⟩
    | popFront =>
      obtain ⟨x, xs, rfl⟩ := List.exists_cons_of_ne_nil hka
      obtain ⟨g, he, hg, hall'⟩ := hc.pop hsmall
      rw [ChunkedFifo.step, operate, he] at hs
      obtain rfl := Except.ok.inj hs
      exact ⟨hg, hall'.trans hall⟩
    | _ => exact hka.elim

/-! ## The number of chunks -/

/-- The free chunks are taken from the number that is needed. -/
theorem Rep.lessFree (h : Rep f ls) (needed : UInt64) :
    (if needed ≤ f.nfreeChunks then 0 else needed - f.nfreeChunks).toNat =
      needed.toNat - f.freeChunks.length := by
  rw [← h.nfree]
  split
  · rename_i hle
    exact (Nat.sub_eq_zero_of_le (UInt64.le_iff_toNat_le.mp hle)).symm
  · rename_i hlt
    exact UInt64.toNat_sub_of_le _ _ (UInt64.le_of_lt (UInt64.not_le.mp hlt))

/-- Without a last chunk. -/
theorem Rep.neededChunks_nil (h : Rep f []) (n : UInt64) : (f.neededChunks n).toNat =
    ((n + itemsPerChunk - 1) / itemsPerChunk).toNat - f.freeChunks.length := by
  have hnil : f.chunks = [] := List.forall₂_nil_right_iff.mp h.chunks
  rw [neededChunks, size, hnil]
  dsimp only [List.getLast?_nil]
  rw [UInt64.sub_zero]
  exact h.lessFree _

/-- With a last chunk its room is subtracted in 64 bits, and what is needed may be less than
zero. -/
theorem Rep.neededChunks_concat (h : Rep f (init ++ [l])) (hlt : l.length < 2 ^ 32) (n : UInt64) :
    (f.neededChunks n).toNat =
      ((n + UInt64.ofNat l.length - f.size - 1) / itemsPerChunk).toNat - f.freeChunks.length := by
  obtain ⟨cs, c, hcs, -, hc⟩ := h.last
  have hcount : (c.end_ - c.begin).toUInt64 = UInt64.ofNat l.length := by
    rw [← UInt64.toNat_inj, hc.count, UInt64.toNat_ofNat', Nat.mod_eq_of_lt hlt,
      Nat.mod_eq_of_lt (by omega)]
  have hneed : n - f.size - (itemsPerChunk - UInt64.ofNat l.length) + itemsPerChunk - 1 =
      n + UInt64.ofNat l.length - f.size - 1 := by
    grind
  rw [neededChunks, hcs, List.getLast?_concat]
  simp only [hcount, hneed]
  exact h.lessFree _

/-- `reserve` finds the number of chunks when one is enough. -/
theorem Rep.neededChunks (h : Rep f ls) (hsmall : itemsPerChunk.toNat ≤ 2 ^ 30) {n : UInt64}
    (hfits : n.toNat ≤ itemsPerChunk.toNat)
    (hlast : ∀ l ∈ ls.getLast?, ls.flatten.length < l.length + n.toNat) :
    (f.neededChunks n).toNat = chunksMissing (f, ls.flatten) n.toNat := by
  have hpos := h.pos
  rcases nil_or_concat ls with rfl | ⟨init, l, rfl⟩
  · have hnil : f.chunks = [] := List.forall₂_nil_right_iff.mp h.chunks
    have hroom : f.room = 0 := by
      rw [ChunkedFifo.room, hnil]
      rfl
    have hsum : (n + itemsPerChunk - 1).toNat = n.toNat + itemsPerChunk.toNat - 1 := by
      rw [UInt64.toNat_sub_of_le, UInt64.toNat_add, Nat.mod_eq_of_lt (by omega)]
      · rfl
      · rw [UInt64.le_iff_toNat_le, UInt64.toNat_add, Nat.mod_eq_of_lt (by omega)]
        exact Nat.le_trans hpos (Nat.le_add_left _ _)
    rw [h.neededChunks_nil, UInt64.toNat_div, hsum, chunksMissing, hroom]
    rfl
  · have hle := length_le_flatten init l
    have hlast' := hlast l (by simp)
    have hlen := h.length_le (l := l) (by simp)
    have hlt : l.length < 2 ^ 32 := by omega
    have hsize := h.size_iff.mpr (h.narrow hsmall)
    have hsum : (n + UInt64.ofNat l.length - f.size - 1).toNat =
        n.toNat + l.length - (init ++ [l]).flatten.length - 1 := by
      have hadd : (n + UInt64.ofNat l.length).toNat = n.toNat + l.length := by
        rw [UInt64.toNat_add, UInt64.toNat_ofNat', Nat.mod_eq_of_lt (by omega),
          Nat.mod_eq_of_lt (by omega)]
      have hsub : (n + UInt64.ofNat l.length - f.size).toNat =
          n.toNat + l.length - (init ++ [l]).flatten.length := by
        rw [UInt64.toNat_sub_of_le, hadd, hsize]
        rw [UInt64.le_iff_toNat_le, hadd, hsize]
        omega
      rw [UInt64.toNat_sub_of_le, hsub]
      · rfl
      · rw [UInt64.le_iff_toNat_le, hsub]
        show 1 ≤ _
        omega
    rw [h.neededChunks_concat hlt, UInt64.toNat_div, hsum, chunksMissing, h.room hlt,
      Nat.div_eq_of_lt (by omega), Nat.div_eq_of_lt]
    dsimp only
    omega

/-- The loop of `reserve` allocates what it sets out to. -/
theorem allocateFree_eq (needed available : Nat) (hle : needed ≤ available)
    (hspace : (f.chunks.length + f.freeChunks.length + needed) * itemsPerChunk.toNat < 2 ^ 64) :
    ∃ g, allocateFree needed available f = (false, g) ∧
      g.allocations = f.allocations + needed ∧
      g.freeChunks.length = f.freeChunks.length + needed := by
  induction needed generalizing available f with
  | zero => exact ⟨f, rfl, rfl, rfl⟩
  | succ needed ih =>
    obtain ⟨available, rfl⟩ := Nat.exists_eq_succ_of_ne_zero (Nat.ne_zero_of_lt hle)
    have hroom : f.noSpace = false := by
      rw [noSpace, decide_eq_false_iff_not, Nat.not_le]
      apply Nat.lt_of_le_of_lt _ hspace
      exact Nat.mul_le_mul_right _ (by omega)
    rw [allocateFree, hroom]
    obtain ⟨g, he, hall, hlen⟩ := ih (f := { f with
      freeChunks := {} :: f.freeChunks
      nfreeChunks := f.nfreeChunks + 1
      allocations := f.allocations + 1 }) available (Nat.le_of_succ_le_succ hle) (by
        simp only [List.length_cons]
        rwa [Nat.add_assoc, Nat.add_assoc, Nat.add_comm 1 needed, ← Nat.add_assoc])
    refine ⟨g, he, ?_, ?_⟩
    · rw [hall]
      simp only
      omega
    · rw [hlen]
      simp only [List.length_cons]
      omega

/-- In an empty fifo one chunk is missing, if any. -/
theorem Rep.chunksMissing_nil (h : Rep f []) {n : Nat} (hfits : n ≤ itemsPerChunk.toNat) :
    chunksMissing (f, []) n = (if n = 0 then 0 else 1) - f.freeChunks.length := by
  have hpos := h.pos
  have hnil : f.chunks = [] := List.forall₂_nil_right_iff.mp h.chunks
  have hroom : f.room = 0 := by
    rw [ChunkedFifo.room, hnil]
    rfl
  rw [chunksMissing, hroom]
  congr 1
  simp only [List.length_nil, Nat.sub_zero]
  split
  · rename_i hzero
    rw [hzero, Nat.zero_add]
    exact Nat.div_eq_of_lt (Nat.sub_lt hpos Nat.one_pos)
  · rw [Nat.div_eq_of_lt_le]
    · omega
    · rw [Nat.add_mul]
      omega

/-- In another one no chunk is missing while fewer than `n` elements are not in the last chunk. -/
theorem Rep.chunksMissing_concat (h : Rep f (init ++ [l])) (hlt : l.length < 2 ^ 32) {n : Nat}
    (hfits : n ≤ (init ++ [l]).flatten.length + (itemsPerChunk.toNat - l.length)) :
    chunksMissing (f, (init ++ [l]).flatten) n = 0 := by
  have hpos := h.pos
  rw [chunksMissing, h.room hlt, Nat.sub_sub, Nat.sub_eq_zero_of_le hfits, Nat.div_eq_of_lt,
    Nat.zero_sub]
  omega

/-- The promise is kept when one chunk is enough. -/
theorem Rep.promise (h : Rep f ls) (hsmall : itemsPerChunk.toNat ≤ 2 ^ 30) {n : UInt64}
    (hfits : n.toNat ≤ itemsPerChunk.toNat)
    (hlast : ∀ l ∈ ls.getLast?, ls.flatten.length < l.length + n.toNat) {throws : Bool}
    (hthrows : throws = true → n.toNat = 0) : Promise throws (f, ls.flatten) n := by
  intro available hav
  have hneeded := h.neededChunks hsmall hfits hlast
  have hcases : chunksMissing (f, ls.flatten) n.toNat = 0 ∨ ls = [] ∧ f.freeChunks.length = 0 ∧
      chunksMissing (f, ls.flatten) n.toNat = 1 := by
    rcases nil_or_concat ls with rfl | ⟨init, l, rfl⟩
    · have hmissing := h.chunksMissing_nil hfits
      rw [List.flatten_nil, hmissing]
      rcases Nat.eq_zero_or_pos f.freeChunks.length with hfree | hfree
      · split
        · exact Or.inl (Nat.zero_sub _)
        · exact Or.inr ⟨rfl, hfree, by rw [hfree]⟩
      · apply Or.inl
        split <;> omega
    · have hlen := h.length_le (l := l) (by simp)
      have hle := length_le_flatten init l
      exact Or.inl (h.chunksMissing_concat (by omega) (by omega))
  have hspace : (f.chunks.length + f.freeChunks.length + chunksMissing (f, ls.flatten) n.toNat) *
      itemsPerChunk.toNat < 2 ^ 64 := by
    rcases hcases with hzero | ⟨rfl, hfree, hone⟩
    · rw [hzero, h.length_eq]
      exact h.space
    · rw [hone, hfree, h.length_eq]
      show (0 + 0 + 1) * _ < _
      omega
  obtain ⟨g, he, hall, hlen⟩ := allocateFree_eq (f := f) _ available (hneeded ▸ hav)
    (hneeded ▸ hspace)
  have hg := h.reserve available n
  rw [ChunkedFifo.reserve, he] at hg
  refine ⟨g, he, hneeded ▸ hall, fun as s' hk hr => ?_⟩
  refine Covered.run hsmall hfits hthrows ⟨ls, hg, rfl, ?_, hlast⟩ hk hr
  rintro rfl hn hnil
  have hmissing := h.chunksMissing_nil hfits
  rw [if_neg (Nat.ne_of_gt hn)] at hmissing
  dsimp only at hnil hneeded
  rw [hnil, hneeded] at hlen
  simp only [List.length_nil, List.flatten_nil] at hlen
  omega

/-! ## A chunk too few -/

/-- Some pushes and pops with at most `n` elements allocate a chunk. -/
def Allocates (throws : Bool) (n : Nat) (s : ChunkedFifo T itemsPerChunk × List T) : Prop :=
  ∃ as s', Run.Along step (Keeps throws n) s as ∧ run s as = .ok s' ∧
    s.1.allocations < s'.1.allocations

variable {throws : Bool} {n : Nat}

theorem allocates_of_step {s t : ChunkedFifo T itemsPerChunk × List T} {a : Action T}
    (hk : Keeps throws n s a) (hs : step s a = .ok t) (hlt : s.1.allocations < t.1.allocations) :
    Allocates throws n s :=
  ⟨[a], t, ⟨hk, fun _ _ => trivial⟩, Run.run_cons_ok.mpr ⟨t, hs, rfl⟩, hlt⟩

theorem Allocates.of_step {s t : ChunkedFifo T itemsPerChunk × List T} {a : Action T}
    (hk : Keeps throws n s a) (hs : step s a = .ok t) (heq : t.1.allocations = s.1.allocations)
    (h : Allocates throws n t) : Allocates throws n s := by
  obtain ⟨as, s', hks, hr, hlt⟩ := h
  refine ⟨a :: as, s', ⟨hk, fun t' ht' => ?_⟩, Run.run_cons_ok.mpr ⟨t, hs, hr⟩, heq ▸ hlt⟩
  obtain rfl := Except.ok.inj (hs.symm.trans ht')
  exact hks

/-- A pop of the first element. -/
theorem Allocates.of_popFront (he : f.popFront = .ok g) (h : Allocates throws n (g, xs)) :
    Allocates throws n (f, x :: xs) := by
  refine Allocates.of_step (a := .popFront) (List.cons_ne_nil _ _) ?_ (popFront_allocations he) h
  rw [step, operate, he]
  rfl

/-- What an empty fifo may do, any fifo may do once it is popped empty. -/
theorem Allocates.of_empty (hempty : ∀ g : ChunkedFifo T itemsPerChunk, Rep g [] →
      Allocates throws n (g, [])) (h : Rep f ls) (hn : Countable ls) :
    Allocates throws n (f, ls.flatten) := by
  generalize hxs : ls.flatten = xs
  induction xs generalizing f ls with
  | nil =>
    obtain rfl := h.nil_of_flatten hxs
    exact hempty f h
  | cons x xs ih =>
    obtain ⟨g, ls', he, hg, hls', hn'⟩ := h.popFront_flatten hn hxs
    exact (ih hg hn' hls').of_popFront he

/-- A push that needs a chunk when none is free. -/
theorem allocates_of_new {x : Option T} (hx : throws = false → x.isSome) (hlt : xs.length < n)
    (hnew : f.ensureRoomBack true = f.backChunkNew true) (hfree : f.freeChunks = []) :
    Allocates throws n (f, xs) := by
  have hstep : step (f, xs) (.emplaceBack true x) =
      .ok ({ f with allocations := f.allocations + 1 }, xs) := by
    rw [step, operate, emplaceBack, hnew, backChunkNew_nil hfree]
    rfl
  exact allocates_of_step (a := .emplaceBack true x) ⟨hlt, hx⟩ hstep (Nat.lt_succ_self _)

/-- When a constructor throws in a chunk that was free, the chunk is freed. -/
theorem allocates_of_throws (hn : 0 < n) (h : Rep f []) : Allocates true n (f, []) := by
  generalize hm : f.freeChunks = free
  induction free generalizing f with
  | nil => exact allocates_of_new (x := none) (by simp) hn (h.ensureRoomBack_nil true) hm
  | cons c rest ih =>
    obtain ⟨g, he, hrest, hall⟩ := backChunkNew_cons hm true
    have hundo := undoRoomBack_free g
    have hstep : step (f, []) (.emplaceBack true none) = .ok (g.undoRoomBack, []) := by
      rw [step, operate, emplaceBack, h.ensureRoomBack_nil, he]
      rfl
    have hg : Rep g.undoRoomBack [] := by
      rcases h.backChunkNew (by simp) (absurd rfl) true with ⟨g', he', -⟩ | ⟨g', he', hg⟩
      · cases he.symm.trans he'
      · obtain rfl := (Prod.mk.inj (he.symm.trans he')).2
        exact hg.undoRoomBack h
    have hkeep : Keeps true n (f, []) (.emplaceBack true none) := ⟨hn, by simp⟩
    apply Allocates.of_step hkeep hstep (hundo.2.trans hall) (ih hg _)
    rw [hundo.1, hrest]

/-- Pushes into one chunk until it is full, and one more. -/
theorem allocates_of_one (hsmall : itemsPerChunk.toNat ≤ 2 ^ 30) (hn : itemsPerChunk.toNat < n)
    (x : T) (h : Rep f [l]) (hfree : f.freeChunks = []) : Allocates throws n (f, l) := by
  have hlen : l.length ≤ itemsPerChunk.toNat := h.length_le (by simp)
  generalize hroom : itemsPerChunk.toNat - l.length = room
  induction room generalizing f l with
  | zero =>
    have hfull : l.length = itemsPerChunk.toNat := by omega
    refine allocates_of_new (x := some x) (fun _ => rfl) (by omega) ?_ hfree
    have hone : Rep f ([] ++ [l]) := h
    exact hone.ensureRoomBack_full (by omega) hfull true
  | succ room ih =>
    have hlt : l.length < itemsPerChunk.toNat := by omega
    obtain ⟨g, he, hg⟩ := h.step_push hlt (by omega) x
    have hput : g = f.put x := by
      have hone : Rep f ([] ++ [l]) := h
      rw [step, operate, emplaceBack, hone.ensureRoomBack_room (by omega) hlt] at he
      exact (Prod.mk.inj (Except.ok.inj he)).1.symm
    have hkeep : Keeps throws n (f, l) (.emplaceBack false (some x)) := by
      refine ⟨?_, fun _ => rfl⟩
      show l.length < n
      omega
    have hlen' : (l ++ [x]).length = l.length + 1 := by simp
    rw [hput] at he hg
    exact Allocates.of_step hkeep he rfl (ih hg hfree (by omega) (by omega))

/-- More than one chunk is not kept: chunks are freed until one is left. -/
theorem allocates_of_two (hsmall : itemsPerChunk.toNat ≤ 2 ^ 30) (hn : itemsPerChunk.toNat < n)
    (x : T) (h : Rep f []) : Allocates throws n (f, []) := by
  have hpos := h.pos
  generalize hm : f.freeChunks = free
  induction free generalizing f with
  | nil =>
    exact allocates_of_new (x := some x) (fun _ => rfl) (by simp; omega)
      (h.ensureRoomBack_nil true) hm
  | cons c rest ih =>
    obtain ⟨g, he, hg, hrest, hall⟩ := h.emplaceBack_free hm false x
    have hkeep : Keeps throws n (f, []) (.emplaceBack false (some x)) := by
      refine ⟨?_, fun _ => rfl⟩
      show 0 < n
      omega
    have hstep : step (f, []) (.emplaceBack false (some x)) = .ok (g, [x]) := by
      rw [step, operate, he]
      rfl
    apply Allocates.of_step hkeep hstep hall
    cases rest with
    | nil => exact allocates_of_one hsmall hn x hg hrest
    | cons d rest =>
      obtain ⟨c', he', hg'⟩ := hg.popFront_last
      apply Allocates.of_popFront he'
      apply ih hg'
      rw [hg.frontChunkDelete_free, hrest, if_neg (by simp)]

/-- When `n` elements or more are not in the last chunk, what is needed is less than zero, and
`reserve` asks for about all chunks there could be. -/
theorem Rep.not_promise (h : Rep f (init ++ [l])) (hsmall : itemsPerChunk.toNat ≤ 2 ^ 30)
    {n : UInt64} (hmany : l.length + n.toNat ≤ (init ++ [l]).flatten.length) :
    ¬Promise throws (f, (init ++ [l]).flatten) n := by
  intro hp
  have hpos := h.pos
  have hlen := h.length_le (l := l) (by simp)
  have hlt : l.length < 2 ^ 32 := by omega
  have hsize := h.size_iff.mpr (h.narrow hsmall)
  have hsize_lt := f.size.toNat_lt
  have hneed : (n + UInt64.ofNat l.length - f.size - 1).toNat =
      2 ^ 64 - ((init ++ [l]).flatten.length + 1 - n.toNat - l.length) := by
    have hadd : (n + UInt64.ofNat l.length).toNat = n.toNat + l.length := by
      rw [UInt64.toNat_add, UInt64.toNat_ofNat', Nat.mod_eq_of_lt (by omega),
        Nat.mod_eq_of_lt (by omega)]
    rw [UInt64.toNat_sub, UInt64.toNat_sub, hadd, hsize]
    show (2 ^ 64 - 1 + _) % 2 ^ 64 = _
    omega
  have hneeded : 0 < (f.neededChunks n).toNat := by
    obtain ⟨cs, c, -, hinit, -⟩ := h.last
    have hout := flatten_length_le hinit
    have hspace := h.space
    rw [List.flatten_append, List.flatten_singleton, List.length_append] at hneed
    rw [List.length_append, List.length_singleton, Nat.add_mul, Nat.add_mul] at hspace
    rw [h.neededChunks_concat hlt, UInt64.toNat_div, hneed]
    apply Nat.sub_pos_of_lt
    apply (Nat.le_div_iff_mul_le hpos).mpr
    rw [Nat.succ_mul]
    omega
  have hmissing : chunksMissing (f, (init ++ [l]).flatten) n.toNat = 0 :=
    h.chunksMissing_concat hlt (by omega)
  obtain ⟨g, he, -⟩ := hp 0 (Nat.le_of_eq hmissing)
  dsimp only at he
  obtain ⟨needed, hk⟩ := Nat.exists_eq_succ_of_ne_zero (Nat.ne_of_gt hneeded)
  rw [ChunkedFifo.reserve, hk, ChunkedFifo.allocateFree] at he
  cases he

/-- After a reservation that keeps its promise nothing can allocate. -/
theorem Promise.not_allocates {n : UInt64} (h : Promise throws (f, xs) n) (hrep : Rep f ls) :
    ∃ g : ChunkedFifo T itemsPerChunk, Rep g ls ∧ ¬Allocates throws n.toNat (g, xs) := by
  obtain ⟨g, he, -, hkept⟩ := h _ (Nat.le_refl _)
  have hg := hrep.reserve (chunksMissing (f, xs) n.toNat) n
  dsimp only at he
  rw [he] at hg
  refine ⟨g, hg, ?_⟩
  rintro ⟨as, s', hk, hr, hlt⟩
  rw [hkept as s' hk hr] at hlt
  exact Nat.lt_irrefl _ hlt

/-- In every state that can be reached, `reserve` keeps its promise for `n` elements exactly when
they fit in one chunk, the fifo is empty or has fewer than `n` elements outside its last chunk, and
no constructor throws. -/
theorem reserve_promise_iff [Inhabited T] (hc : ∃ k, itemsPerChunk.toNat = 2 ^ k)
    (hsmall : itemsPerChunk.toNat ≤ 2 ^ 30) (as : List (Action T))
    (hv : Run.Along step Valid (({}, []) : ChunkedFifo T itemsPerChunk × List T) as)
    {s : ChunkedFifo T itemsPerChunk × List T} (hr : run ({}, []) as = .ok s) (throws : Bool)
    (n : UInt64) :
    Promise throws s n ↔ n ≤ itemsPerChunk ∧
      (s.1.empty = true ∨ s.2.length < s.1.inLast + n.toNat) ∧ (throws = true → n = 0) := by
  obtain ⟨f, xs⟩ := s
  obtain ⟨ls, h, hls⟩ := run_related hc hsmall hv hr
  dsimp only at h hls
  subst hls
  have hcount : Countable ls := h.countable (h.narrow hsmall)
  rw [UInt64.le_iff_toNat_le]
  constructor
  · intro hp
    obtain ⟨g, hg, hno⟩ := hp.not_allocates h
    refine ⟨?_, ?_, ?_⟩
    · by_contra hfits
      apply hno
      apply Allocates.of_empty _ hg hcount
      intro g' hg'
      exact allocates_of_two hsmall (Nat.lt_of_not_le hfits) default hg'
    · rcases nil_or_concat ls with rfl | ⟨init, l, rfl⟩
      · exact Or.inl (h.empty_iff.mpr rfl)
      · apply Or.inr
        rw [h.inLast (hcount l (by simp))]
        by_contra hmany
        exact h.not_promise hsmall (Nat.le_of_not_lt hmany) hp
    · rintro rfl
      by_contra hn
      have hpos : 0 < n.toNat := by
        rw [Nat.pos_iff_ne_zero]
        intro hzero
        exact hn (UInt64.toNat_inj.mp hzero)
      apply hno
      apply Allocates.of_empty _ hg hcount
      intro g' hg'
      exact allocates_of_throws hpos hg'
  · rintro ⟨hfits, hlast, hthrows⟩
    apply h.promise hsmall hfits
    · intro l hl
      obtain ⟨init, rfl⟩ := List.getLast?_eq_some_iff.mp hl
      rcases hlast with hempty | hlast
      · have hnil := h.nil_of_flatten (h.empty_iff.mp hempty)
        exact absurd hnil (by simp)
      · rwa [h.inLast (hcount l (by simp))] at hlast
    · intro ht
      rw [hthrows ht]
      rfl

/-- Four elements in a fifo with one, in chunks of four. -/
theorem reserve_promise_iff_four :
    ∃ s, run (({}, []) : ChunkedFifo Nat 4 × List Nat) [.emplaceBack false (some 7)] = .ok s ∧
      Promise false s 4 :=
  ⟨_, rfl, (reserve_promise_iff ⟨2, rfl⟩ (by decide) [.emplaceBack false (some 7)]
    (by decide +kernel) rfl false 4).mpr (by decide +kernel)⟩

/-- One element is left in the second chunk of four and the first one is free, so that `reserve(8)`
allocates nothing; but the pop of the element frees its chunk, and of the five pushes that follow
the last one allocates. -/
theorem reserve_breaks_promise :
    ∃ s, run (({}, []) : ChunkedFifo Nat 4 × List Nat)
        [.emplaceBack false (some 1), .emplaceBack false (some 2), .emplaceBack false (some 3),
          .emplaceBack false (some 4), .emplaceBack false (some 5), .popFront, .popFront,
          .popFront, .popFront] = .ok s ∧ s.2 = [5] ∧ ¬Promise false s 8 := by
  refine ⟨_, rfl, rfl, fun h => ?_⟩
  obtain ⟨g, he, -, hkept⟩ := h 0 (by decide +kernel)
  obtain rfl := (Prod.mk.inj he).2
  have hsame := hkept [.popFront, .emplaceBack false (some 6), .emplaceBack false (some 7),
    .emplaceBack false (some 8), .emplaceBack false (some 9), .emplaceBack false (some 10)] _
    (by decide +kernel) rfl
  exact absurd hsame (by decide +kernel)

end ChunkedFifo

end Seastar
