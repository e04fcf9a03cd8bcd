import Seastar.Core.ChunkedFifoEnds

/-!
Runs of a `chunked_fifo`, beside a list under the same operations. The fifo is read as
the list as long as 32 bits are enough for the elements of its first and last chunk.
-/

namespace Seastar

open Lib

variable {T : Type} {itemsPerChunk : UInt64}

namespace ChunkedFifo

/-- What can happen to a fifo. The elements pushed come with their constructor, which may throw,
and with what the allocator does. After a move one goes on with the new fifo, or with the old. -/
inductive Action (T : Type)
  | emplaceBack (fails : Bool) (x : Option T)
  | popFront
  | clear
  | move
  | movedFrom
  | reserve (available : Nat) (n : UInt64)
  | shrinkToFit
  deriving DecidableEq, Repr

/-- One action; tells whether an exception was thrown. -/
def operate (f : ChunkedFifo T itemsPerChunk) :
    Action T → Except Fault (Bool × ChunkedFifo T itemsPerChunk)
  | .emplaceBack fails x => .ok (f.emplaceBack fails x)
  | .popFront => f.popFront.map (false, ·)
  | .clear => f.clear.map (false, ·)
  | .move => .ok (false, f.move.1)
  | .movedFrom => .ok (false, f.move.2)
  | .reserve available n => .ok (f.reserve available n)
  | .shrinkToFit => .ok (false, f.shrinkToFit)

/-- The action on a list. -/
def onList (xs : List T) : Action T → List T
  | .emplaceBack _ x => xs ++ x.toList
  | .popFront => xs.tail
  | .clear => []
  | .movedFrom => []
  | .move => xs
  | .reserve _ _ => xs
  | .shrinkToFit => xs

/-- The fifo and the list side by side; an action that throws is not taken by the list. -/
def step (s : ChunkedFifo T itemsPerChunk × List T) (a : Action T) :
    Except Fault (ChunkedFifo T itemsPerChunk × List T) := do
  let (thrown, f) ← s.1.operate a
  .ok (f, if thrown then s.2 else onList s.2 a)

/-- The fifo and the list after the actions, oldest first. -/
def run : ChunkedFifo T itemsPerChunk × List T → List (Action T) →
    Except Fault (ChunkedFifo T itemsPerChunk × List T) := Run.run step

/-- Nothing is popped from an empty fifo. -/
def Valid (s : ChunkedFifo T itemsPerChunk × List T) : Action T → Prop
  | .popFront => s.2 ≠ []
  | _ => True

instance (s : ChunkedFifo T itemsPerChunk × List T) (a : Action T) : Decidable (Valid s a) := by
  unfold Valid
  split
  · exact decidable_of_iff (s.2.isEmpty = false) (by simp)
  · infer_instance

/-- The fifo is read as the list. -/
structure ReadsAs (f : ChunkedFifo T itemsPerChunk) (xs : List T) : Prop where
  size_ : f.size.toNat = xs.length
  empty_ : f.empty = true ↔ xs = []
  front_ : ∀ x ∈ xs.head?, f.front = .ok x
  back_ : ∀ x ∈ xs.getLast?, f.back = .ok x
  contents_ : contents itemsPerChunk f.chunks = .ok xs

variable {f : ChunkedFifo T itemsPerChunk} {ls : List (List T)} {xs : List T}

/-! ## Reading -/

theorem contents_eq {cs : List (Chunk T)} (h : List.Forall₂ (Holds itemsPerChunk) cs ls)
    (hn : Countable ls) : contents itemsPerChunk cs = .ok ls.flatten := by
  induction h with
  | nil => rfl
  | @cons c l cs ls hc _ ih =>
    have hlt : l.length < 2 ^ 32 := hn l List.mem_cons_self
    have hcount := hc.count
    rw [UInt32.toNat_toUInt64, Nat.mod_eq_of_lt hlt] at hcount
    have hread := hc.read l.length 0 (Nat.zero_add _)
    rw [offset_zero, List.drop_zero] at hread
    rw [contents, hcount, hread, ok_bind, ih fun k hk => hn k (List.mem_cons_of_mem _ hk)]
    rfl

theorem Rep.front (h : Rep f ls) : ∀ x ∈ ls.flatten.head?, f.front = .ok x := by
  intro x hx
  obtain ⟨xs, hxs⟩ := List.head?_eq_some_iff.mp hx
  obtain ⟨l, ls', rfl, -⟩ := h.exists_cons hxs
  obtain ⟨c, cs, hc, -, hcs⟩ := List.forall₂_cons_right_iff.mp h.chunks
  rw [ChunkedFifo.front, hcs]
  exact hc.item_front

theorem Rep.back (h : Rep f ls) : ∀ x ∈ ls.flatten.getLast?, f.back = .ok x := by
  intro x hx
  rcases nil_or_concat ls with rfl | ⟨init, l, rfl⟩
  · cases hx
  · obtain ⟨cs, c, hcs, -, hc⟩ := h.last
    rw [ChunkedFifo.back, hcs, List.getLast?_concat]
    obtain ⟨l, y, rfl⟩ := (nil_or_concat l).resolve_left hc.nonempty
    rw [List.flatten_append, List.flatten_singleton, ← List.append_assoc,
      List.getLast?_concat] at hx
    obtain rfl := Option.some.inj hx
    exact hc.item_back

/-- The fifo is read as what it holds exactly when its size can be told. -/
theorem Rep.readsAs_iff (h : Rep f ls) : ReadsAs f ls.flatten ↔ Narrow f ls.flatten := by
  constructor
  · intro hr
    exact h.size_iff.mp hr.size_
  · intro hn
    exact ⟨h.size_iff.mpr hn, h.empty_iff, h.front, h.back, contents_eq h.chunks (h.countable hn)⟩

/-- Chunks of up to `2 ^ 30` elements are always narrow. -/
theorem Rep.narrow (h : Rep f ls) (hsmall : itemsPerChunk.toNat ≤ 2 ^ 30) :
    Narrow f ls.flatten := by
  have hle := flatten_length_le h.chunks
  rw [Narrow, h.length_eq]
  rcases Nat.lt_or_ge ls.length 2 with hlt | hge
  · have : ls.length * itemsPerChunk.toNat ≤ 1 * 2 ^ 30 :=
      Nat.mul_le_mul (Nat.le_of_lt_succ hlt) hsmall
    omega
  · have hsplit : ls.length * itemsPerChunk.toNat =
        (ls.length - 2) * itemsPerChunk.toNat + 2 * itemsPerChunk.toNat := by
      rw [← Nat.add_mul, Nat.sub_add_cancel hge]
    omega

/-! ## Actions -/

/-- The fifo holds the list. -/
def Related (s : ChunkedFifo T itemsPerChunk × List T) : Prop :=
  ∃ ls, Rep s.1 ls ∧ ls.flatten = s.2

/-- An action on a fifo whose size can be told is the action on the list. -/
theorem Related.step {s : ChunkedFifo T itemsPerChunk × List T} (h : Related s)
    (hn : Narrow s.1 s.2) {a : Action T} (hv : Valid s a) :
    ∃ s', step s a = .ok s' ∧ Related s' := by
  obtain ⟨f, xs⟩ := s
  obtain ⟨ls, hrep, rfl⟩ := h
  have hc : Countable ls := hrep.countable hn
  cases a with
  | emplaceBack fails x =>
    obtain ⟨thrown, g, ls', he, hg, hls'⟩ := hrep.emplaceBack hc fails x
    refine ⟨(g, if thrown then ls.flatten else ls.flatten ++ x.toList), ?_, ls', hg, hls'⟩
    rw [ChunkedFifo.step, operate, he]
    rfl
  | popFront =>
    obtain ⟨x, xs, hxs⟩ := List.exists_cons_of_ne_nil hv
    obtain ⟨g, ls', he, hg, hls', -⟩ := hrep.popFront_flatten hc hxs
    refine ⟨(g, ls.flatten.tail), ?_, ls', hg, ?_⟩
    · rw [ChunkedFifo.step, operate, he]
      rfl
    · rw [hls']
      exact (congrArg List.tail hxs).symm
  | clear =>
    obtain ⟨g, he, hg⟩ := hrep.clear hc
    refine ⟨(g, []), ?_, [], hg, rfl⟩
    rw [ChunkedFifo.step, operate, he]
    rfl
  | move => exact ⟨_, rfl, ls, hrep, rfl⟩
  | movedFrom => exact ⟨_, rfl, [], Rep.initial hrep.power, rfl⟩
  | reserve available n =>
    refine ⟨_, rfl, ls, hrep.reserve available n, ?_⟩
    exact (ite_self _).symm
  | shrinkToFit => exact ⟨_, rfl, ls, hrep.shrinkToFit, rfl⟩

theorem Related.initial (hc : ∃ k, itemsPerChunk.toNat = 2 ^ k) :
    Related (({}, []) : ChunkedFifo T itemsPerChunk × List T) := ⟨[], Rep.initial hc, rfl⟩

theorem Related.readsAs_iff {s : ChunkedFifo T itemsPerChunk × List T} (h : Related s) :
    ReadsAs s.1 s.2 ↔ Narrow s.1 s.2 := by
  obtain ⟨ls, hrep, hls⟩ := h
  rw [← hls]
  exact hrep.readsAs_iff

theorem Related.narrow {s : ChunkedFifo T itemsPerChunk × List T} (h : Related s)
    (hsmall : itemsPerChunk.toNat ≤ 2 ^ 30) : Narrow s.1 s.2 := by
  obtain ⟨ls, hrep, hls⟩ := h
  rw [← hls]
  exact hrep.narrow hsmall

/-- With chunks of up to `2 ^ 30` elements the fifo holds the list after every run. -/
theorem run_related (hc : ∃ k, itemsPerChunk.toNat = 2 ^ k)
    (hsmall : itemsPerChunk.toNat ≤ 2 ^ 30) {as : List (Action T)}
    {s : ChunkedFifo T itemsPerChunk × List T}
    (hv : Run.Along step Valid (({}, []) : ChunkedFifo T itemsPerChunk × List T) as)
    (hr : run ({}, []) as = .ok s) : Related s := by
  refine Run.run_inv (I := Related) ?_ (Related.initial hc) hv hr
  intro s a s' h hva hs
  obtain ⟨t, ht, hrel⟩ := h.step (h.narrow hsmall) hva
  obtain rfl := Except.ok.inj (ht.symm.trans hs)
  exact hrel

/-- In every run the fifo is read as the list under the same operations, in every state on the way,
exactly when in all of them its first and its last chunk hold fewer than `2 ^ 32` elements
together. -/
theorem run_read_as_list (hc : ∃ k, itemsPerChunk.toNat = 2 ^ k) (as : List (Action T))
    (hv : Run.Along step Valid (({}, []) : ChunkedFifo T itemsPerChunk × List T) as) :
    (∀ pre post, as = pre ++ post → ∃ s, run ({}, []) pre = .ok s ∧
        ReadsAs (s.1 : ChunkedFifo T itemsPerChunk) s.2) ↔
      ∀ pre post s, as = pre ++ post →
        run (({}, []) : ChunkedFifo T itemsPerChunk × List T) pre = .ok s → Narrow s.1 s.2 :=
  Run.everywhere_iff (fun _ h => h.readsAs_iff) (fun _ _ h hn hv => h.step hn hv)
    (Related.initial hc) hv

/-- A reservation, a constructor that throws in a new chunk, and pops across chunks of two. -/
theorem run_read_as_list_two :
    Run.Along step Valid (({}, []) : ChunkedFifo Char 2 × List Char)
        [.reserve 1 3, .emplaceBack false (some 'a'), .emplaceBack false (some 'b'),
          .emplaceBack false none, .emplaceBack false (some 'c'), .popFront, .popFront,
          .emplaceBack true (some 'd'), .shrinkToFit, .emplaceBack true (some 'e'), .move,
          .clear] ∧
      ∀ pre post, ([.reserve 1 3, .emplaceBack false (some 'a'), .emplaceBack false (some 'b'),
          .emplaceBack false none, .emplaceBack false (some 'c'), .popFront, .popFront,
          .emplaceBack true (some 'd'), .shrinkToFit, .emplaceBack true (some 'e'), .move,
          .clear] : List (Action Char)) = pre ++ post →
        ∃ s, run (({}, []) : ChunkedFifo Char 2 × List Char) pre = .ok s ∧ ReadsAs s.1 s.2 := by
  have hv : Run.Along step Valid (({}, []) : ChunkedFifo Char 2 × List Char)
      [.reserve 1 3, .emplaceBack false (some 'a'), .emplaceBack false (some 'b'),
        .emplaceBack false none, .emplaceBack false (some 'c'), .popFront, .popFront,
        .emplaceBack true (some 'd'), .shrinkToFit, .emplaceBack true (some 'e'), .move,
        .clear] := by decide +kernel
  apply And.intro hv
  apply (run_read_as_list ⟨1, rfl⟩ _ hv).mpr
  intro pre post s hpre hr
  rw [hpre] at hv
  exact (run_related ⟨1, rfl⟩ (by decide) hv.of_append hr).narrow (by decide)

/-- A push into the only chunk. -/
theorem Rep.step_push {l : List T} (h : Rep f [l]) (hfits : l.length < itemsPerChunk.toNat)
    (hwide : l.length < 2 ^ 32) (x : T) :
    ∃ g : ChunkedFifo T itemsPerChunk,
      ChunkedFifo.step (f, l) (.emplaceBack false (some x)) = .ok (g, l ++ [x]) ∧
        Rep g [l ++ [x]] := by
  have hone : Rep f ([] ++ [l]) := h
  refine ⟨f.put x, ?_, hone.put hfits hwide x⟩
  rw [ChunkedFifo.step, operate, ChunkedFifo.emplaceBack, hone.ensureRoomBack_room hwide hfits]
  rfl

/-- The first push. -/
theorem step_first (hc : ∃ k, itemsPerChunk.toNat = 2 ^ k) (x : T) :
    ∃ f : ChunkedFifo T itemsPerChunk,
      step ({}, []) (.emplaceBack false (some x)) = .ok (f, [x]) ∧ Rep f [[x]] := by
  have h : Rep ({} : ChunkedFifo T itemsPerChunk) [] := Rep.initial hc
  have hroom : noSpace ({} : ChunkedFifo T itemsPerChunk) = false := by
    rw [noSpace, decide_eq_false_iff_not, Nat.not_le]
    show (0 + 0 + 1) * _ < _
    rw [Nat.zero_add, Nat.one_mul]
    exact itemsPerChunk.toNat_lt
  have hnew : backChunkNew false ({} : ChunkedFifo T itemsPerChunk) =
      (false, { chunks := [{}], nchunks := 1, allocations := 1 }) := by
    rw [backChunkNew]
    dsimp only
    rw [hroom]
    rfl
  obtain ⟨g, he, -⟩ | ⟨g, he, hg⟩ := h.backChunkNew (by simp) (absurd rfl) false
  · cases hnew.symm.trans he
  · obtain rfl := (Prod.mk.inj (hnew.symm.trans he)).2
    refine ⟨_, ?_, hg.put h x⟩
    rw [step, operate, emplaceBack, h.ensureRoomBack_nil, hnew]
    rfl

/-- Pushes into one chunk. -/
theorem run_replicate (hc : ∃ k, itemsPerChunk.toNat = 2 ^ k) (x : T) (n : Nat)
    (hfits : n + 1 ≤ itemsPerChunk.toNat) (hwide : n + 1 ≤ 2 ^ 32) :
    ∃ f : ChunkedFifo T itemsPerChunk,
      run ({}, []) (List.replicate (n + 1) (.emplaceBack false (some x))) =
        .ok (f, List.replicate (n + 1) x) ∧ Rep f [List.replicate (n + 1) x] := by
  induction n with
  | zero =>
    obtain ⟨f, hf, hrep⟩ := step_first hc x
    exact ⟨f, Run.run_cons_ok.mpr ⟨_, hf, rfl⟩, hrep⟩
  | succ n ih =>
    obtain ⟨f, hf, hrep⟩ := ih (Nat.le_of_succ_le hfits) (Nat.le_of_succ_le hwide)
    have hlen : (List.replicate (n + 1) x).length = n + 1 := List.length_replicate
    obtain ⟨g, hg, hrep'⟩ := Rep.step_push hrep (by rwa [hlen]) (by rwa [hlen]) x
    refine ⟨g, ?_, ?_⟩
    · rw [run] at hf ⊢
      rw [List.replicate_succ', Run.run_append, hf, ok_bind, List.replicate_succ' (n := n + 1)]
      exact Run.run_cons_ok.mpr ⟨_, hg, rfl⟩
    · rwa [List.replicate_succ']

theorem replicate_valid (x : T) (n : Nat) (s : ChunkedFifo T itemsPerChunk × List T) :
    Run.Along step Valid s (List.replicate n (.emplaceBack false (some x))) := by
  induction n generalizing s with
  | zero => trivial
  | succ n ih => exact ⟨trivial, fun s' _ => ih s'⟩

/-- A full chunk of `2 ^ 32` elements has the offsets of an empty one. -/
theorem size_of_full_chunk :
    Run.Along step Valid (({}, []) : ChunkedFifo Unit 0x100000000 × List Unit)
        (List.replicate (2 ^ 32) (.emplaceBack false (some ()))) ∧
      ∃ (f : ChunkedFifo Unit 0x100000000) (xs : List Unit),
        run ({}, []) (List.replicate (2 ^ 32) (.emplaceBack false (some ()))) = .ok (f, xs) ∧
          xs.length = 2 ^ 32 ∧ f.size.toNat = 0 := by
  constructor
  · exact replicate_valid () _ _
  · have hpower : ∃ k, (0x100000000 : UInt64).toNat = 2 ^ k := ⟨32, rfl⟩
    obtain ⟨f, hf, hrep⟩ := run_replicate hpower () (2 ^ 32 - 1) (Nat.le_refl _) (Nat.le_refl _)
    refine ⟨f, _, hf, List.length_replicate, ?_⟩
    rw [hrep.size_toNat, List.flatten_singleton, List.length_replicate]
    rfl

end ChunkedFifo

end Seastar
