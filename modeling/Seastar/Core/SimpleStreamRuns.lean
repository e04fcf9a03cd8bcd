import Mathlib.Algebra.GroupWithZero.Nat
import Mathlib.Data.List.Forall2
import Seastar.Core.SimpleStream

/-!
Memory streams in use, beside positions in the concatenated memory. A stream over
fragments and a simple stream do what the positions say, and so they do the same.
-/

namespace Seastar

open Lib

namespace MemoryStreams

/-! ## The concatenated memory -/

/-- The amount that a call is about. -/
def Call.amount : Call → Nat
  | .skip n => n
  | .write bs => bs.length
  | .read n => n
  | .substream n => n

/-- Bytes in one piece, and for each stream its position in them and its size. -/
structure Region where
  bytes : List UInt8
  spans : List (Nat × Nat)
  results : List (Option (List UInt8)) := []
  deriving DecidableEq, Repr

/-- What a call returns. -/
def Region.returned (r : Region) (pos : Nat) : Call → List UInt8
  | .read n => (r.bytes.drop pos).take n
  | _ => []

/-- The bytes after a call. -/
def Region.written (r : Region) (pos : Nat) : Call → List UInt8
  | .write bs => Fragments.overwrite r.bytes pos bs
  | _ => r.bytes

/-- The substream that a call makes. -/
def Region.made (pos : Nat) : Call → Option (Nat × Nat)
  | .substream n => some (pos, n)
  | _ => none

/-- A call of one of the streams; one that asks for too much changes nothing. -/
def Region.step (r : Region) (c : Nat × Call) : Region :=
  match r.spans[c.1]? with
  | none => r
  | some (pos, size) =>
    if size < c.2.amount then { r with results := r.results ++ [none] }
    else {
      bytes := r.written pos c.2
      spans := r.spans.set c.1 (pos + c.2.amount, size - c.2.amount) ++
        (Region.made pos c.2).toList
      results := r.results ++ [some (r.returned pos c.2)] }

/-- The region after the calls, oldest first. -/
def Region.run (r : Region) (cs : List (Nat × Call)) : Region := cs.foldl Region.step r

/-! ## Pieces of memory -/

variable {mem mem' : Buffers} {s t : SimpleStream} {ss it : List SimpleStream} {pos n : Nat}
  {bs : List UInt8} {fault : Fault}

/-- The bytes of a simple stream are in one buffer, and at a position of the whole memory. -/
def At (mem : Buffers) (s : SimpleStream) (pos : Nat) : Prop :=
  ∃ b, mem[s.p.buffer]? = some b ∧ s.p.offset + s.size ≤ b.length ∧
    Fragments.start mem s.p.buffer + s.p.offset = pos

/-- The simple streams are next to each other from a position on; where one without bytes points
to does not matter. -/
def Cover (mem : Buffers) : List SimpleStream → Nat → Prop
  | [], _ => True
  | s :: ss, pos => (s.size ≠ 0 → At mem s pos) ∧ Cover mem ss (pos + s.size)

/-- The bytes of all. -/
def total (ss : List SimpleStream) : Nat := (ss.map SimpleStream.size).sum

theorem total_cons (s : SimpleStream) (ss : List SimpleStream) :
    total (s :: ss) = s.size + total ss := by
  rw [total, List.map_cons, List.sum_cons]
  rfl

/-- Buffers of the same lengths. -/
def SameShape (mem mem' : Buffers) : Prop := mem'.map List.length = mem.map List.length

theorem At.congr (h : At mem s pos) (hshape : SameShape mem mem') : At mem' s pos := by
  obtain ⟨b, hb, hle, hpos⟩ := h
  have hlen : (mem'.map List.length)[s.p.buffer]? = some b.length := by
    rw [hshape, List.getElem?_map, hb]
    rfl
  rw [List.getElem?_map] at hlen
  obtain ⟨b', hb', hlen'⟩ := Option.map_eq_some_iff.mp hlen
  refine ⟨b', hb', by rwa [hlen'], ?_⟩
  rw [Fragments.start_congr hshape, hpos]

theorem Cover.congr (h : Cover mem ss pos) (hshape : SameShape mem mem') : Cover mem' ss pos := by
  induction ss generalizing pos with
  | nil => trivial
  | cons s ss ih => exact ⟨fun hne => (h.1 hne).congr hshape, ih h.2⟩

/-- A piece is cut in two. -/
theorem At.cut (h : At mem s pos) (hn : n ≤ s.size) :
    At mem { p := s.p, size := n } pos ∧
      At mem { p := { s.p with offset := s.p.offset + n }, size := s.size - n } (pos + n) := by
  obtain ⟨b, hb, hle, hpos⟩ := h
  refine ⟨⟨b, hb, ?_, hpos⟩, b, hb, ?_, ?_⟩
  · show s.p.offset + n ≤ _
    omega
  · show s.p.offset + n + (s.size - n) ≤ _
    omega
  · show Fragments.start mem s.p.buffer + (s.p.offset + n) = _
    rw [← hpos, Nat.add_assoc]

/-- The first piece is cut in two. -/
theorem Cover.cut (h : Cover mem (s :: ss) pos) (hn : n ≤ s.size) :
    Cover mem [{ p := s.p, size := n }] pos ∧
      Cover mem ({ p := { s.p with offset := s.p.offset + n }, size := s.size - n } :: ss)
        (pos + n) := by
  refine ⟨⟨fun hne => ?_, trivial⟩, fun hne => ?_, ?_⟩
  · exact ((h.1 (by dsimp only at hne; omega)).cut hn).1
  · exact ((h.1 (by dsimp only at hne; omega)).cut hn).2
  · have hrest := h.2
    rwa [show pos + s.size = pos + n + (s.size - n) by omega] at hrest

/-! ## Copying -/

/-- The piece ends within the memory. -/
theorem At.le (h : At mem s pos) : pos + s.size ≤ mem.flatten.length := by
  obtain ⟨b, hb, hle, rfl⟩ := h
  have hend := Fragments.start_add_length_le hb
  omega

/-- What is copied to a piece is written at its position. -/
theorem copyTo_spec (h : bs ≠ [] → At mem { p := s.p, size := bs.length } pos) :
    ∃ mem', Buffers.copyTo mem s.p bs = .ok mem' ∧ SameShape mem mem' ∧
      mem'.flatten = Fragments.overwrite mem.flatten pos bs := by
  rw [Buffers.copyTo]
  rcases hbs : bs with _ | ⟨x, xs⟩
  · exact ⟨mem, rfl, rfl, (Fragments.overwrite_nil _ _).symm⟩
  · obtain ⟨b, hb, hle, hpos⟩ := h (by rw [hbs]; exact List.cons_ne_nil _ _)
    dsimp only at hb hle hpos
    rw [hbs] at hle
    rw [if_neg (by simp), hb]
    dsimp only
    rw [if_pos hle]
    refine ⟨_, rfl, Fragments.map_length_set hb hle, ?_⟩
    rw [Fragments.flatten_set hb hle, hpos]

/-- What is copied from a piece is read at its position. -/
theorem copyFrom_spec (h : s.size ≠ 0 → At mem s pos) :
    Buffers.copyFrom mem s.p s.size = .ok ((mem.flatten.drop pos).take s.size) := by
  rw [Buffers.copyFrom]
  by_cases hzero : s.size = 0
  · rw [if_pos hzero, hzero, List.take_zero]
  · obtain ⟨b, hb, hle, hpos⟩ := h hzero
    rw [if_neg hzero, hb]
    dsimp only
    rw [if_pos hle, ← hpos, Fragments.drop_flatten hb hle]

/-- The bytes that are written into adjacent pieces are written at the position of the first. -/
theorem copyToParts_spec (h : Cover mem ss pos) (hlen : total ss = bs.length) :
    ∃ mem', FragmentedStream.copyToParts mem ss bs = .ok mem' ∧ SameShape mem mem' ∧
      mem'.flatten = Fragments.overwrite mem.flatten pos bs := by
  induction ss generalizing mem pos bs with
  | nil =>
    obtain rfl := List.eq_nil_of_length_eq_zero hlen.symm
    exact ⟨mem, rfl, rfl, (Fragments.overwrite_nil _ _).symm⟩
  | cons s ss ih =>
    rw [total_cons] at hlen
    have htake : (bs.take s.size).length = s.size := by
      rw [List.length_take]
      omega
    have hat : bs.take s.size ≠ [] → At mem { p := s.p, size := (bs.take s.size).length } pos := by
      intro hne
      rw [htake]
      apply h.1
      intro hzero
      rw [hzero] at hne
      exact hne rfl
    obtain ⟨mem₁, he₁, hshape₁, hmem₁⟩ := copyTo_spec hat
    have hdrop : total ss = (bs.drop s.size).length := by
      rw [List.length_drop]
      omega
    obtain ⟨mem₂, he₂, hshape₂, hmem₂⟩ := ih (h.2.congr hshape₁) hdrop
    refine ⟨mem₂, ?_, hshape₂.trans hshape₁, ?_⟩
    · rw [FragmentedStream.copyToParts, he₁, ok_bind, he₂]
    · rw [hmem₂, hmem₁]
      by_cases hzero : s.size = 0
      · rw [hzero, List.take_zero, List.drop_zero, Fragments.overwrite_nil, Nat.add_zero]
      · have hle := (h.1 hzero).le
        have happend : Fragments.overwrite (Fragments.overwrite mem.flatten pos (bs.take s.size))
            (pos + (bs.take s.size).length) (bs.drop s.size) = Fragments.overwrite mem.flatten pos
              (bs.take s.size ++ bs.drop s.size) :=
          Fragments.overwrite_append (by rwa [htake])
        rwa [htake, List.take_append_drop] at happend

/-- The bytes that are read from adjacent pieces are read at the position of the first. -/
theorem copyFromParts_spec (h : Cover mem ss pos) :
    FragmentedStream.copyFromParts mem ss = .ok ((mem.flatten.drop pos).take (total ss)) := by
  induction ss generalizing pos with
  | nil => rfl
  | cons s ss ih =>
    rw [FragmentedStream.copyFromParts, copyFrom_spec h.1, ok_bind, ih h.2, ok_bind, total_cons,
      List.take_add, List.drop_drop]

/-! ## The loop over the fragments -/

theorem substream_eq (hn : n ≤ s.size) : s.substream fault n =
    .ok ({ p := s.p, size := n },
      { p := { s.p with offset := s.p.offset + n }, size := s.size - n }) := by
  rw [SimpleStream.substream, if_neg (by omega), SimpleStream.skip, if_neg (by omega)]
  rfl

/-- An empty fragment is passed by. -/
theorem nextFragment_spec {current : SimpleStream} {rounds : Nat}
    (h : Cover mem (current :: it) pos) (hpos : 0 < total (current :: it))
    (hrounds : it.length + (if current.size = 0 then 0 else 1) < rounds + 1) :
    ∃ c rest, FragmentedStream.nextFragment current it = .ok (c, rest) ∧
      Cover mem (c :: rest) pos ∧ total (c :: rest) = total (current :: it) ∧
      rest.length < rounds := by
  unfold FragmentedStream.nextFragment
  by_cases hempty : current.size = 0
  · rw [if_pos hempty] at hrounds ⊢
    have hcover := h.2
    rw [total_cons, hempty, Nat.zero_add] at hpos ⊢
    rw [hempty, Nat.add_zero] at hcover
    cases it with
    | nil => exact absurd hpos (Nat.lt_irrefl 0)
    | cons f fs => exact ⟨f, fs, rfl, hcover, rfl, Nat.lt_of_succ_lt_succ hrounds⟩
  · rw [if_neg hempty] at hrounds ⊢
    exact ⟨current, it, rfl, h, rfl, Nat.lt_of_succ_lt_succ hrounds⟩

/-- `for_each_fragment` calls its function with adjacent pieces from the position of the stream on,
and goes on behind them. -/
theorem loop_spec {current : SimpleStream} {size rounds : Nat} (h : Cover mem (current :: it) pos)
    (hsize : size ≤ total (current :: it)) (hpos : 0 < rounds)
    (hrounds : size ≠ 0 → it.length + (if current.size = 0 then 0 else 1) < rounds) :
    ∃ parts current' it', FragmentedStream.loop fault rounds size current it =
        .ok (parts, current', it') ∧
      Cover mem parts pos ∧ total parts = size ∧ Cover mem (current' :: it') (pos + size) ∧
      size + total (current' :: it') = total (current :: it) := by
  induction rounds generalizing current it size pos with
  | zero => exact absurd hpos (Nat.lt_irrefl 0)
  | succ rounds ih =>
    rw [FragmentedStream.loop]
    by_cases hzero : size = 0
    · rw [if_pos hzero, hzero]
      exact ⟨[], current, it, rfl, trivial, rfl, h, Nat.zero_add _⟩
    · rw [if_neg hzero]
      have hlt := hrounds hzero
      obtain ⟨c, rest, hload, hcover, htotal, hlen⟩ := nextFragment_spec h (by omega) hlt
      rw [hload, ok_bind]
      dsimp only
      have hthis : min c.size size ≤ c.size := Nat.min_le_left _ _
      obtain ⟨hpart, hrest⟩ := hcover.cut hthis
      rw [← htotal, total_cons] at hsize ⊢
      rw [substream_eq hthis, ok_bind]
      have hsize' : size - min c.size size ≤ c.size - min c.size size + total rest := by omega
      rw [← total_cons { p := { c.p with offset := _ }, size := _ }] at hsize'
      obtain ⟨parts, current', it', he, hparts, hlenp, hcover', htotal'⟩ :=
        ih hrest hsize' (Nat.zero_lt_of_lt hlen) (fun hne => by
            rw [if_pos (by dsimp only; omega)]
            exact hlen)
      dsimp only
      rw [he, ok_bind]
      refine ⟨_, current', it', rfl, ⟨hpart.1, hparts⟩, ?_, ?_, ?_⟩
      · rw [total_cons, hlenp]
        dsimp only
        omega
      · rwa [show pos + min c.size size + (size - min c.size size) = pos + size by omega] at hcover'
      · rw [total_cons _ rest] at htotal'
        dsimp only at htotal'
        omega

/-! ## Calls -/

/-- The pieces that a stream is through with last. -/
def views : MemoryStream → List SimpleStream
  | .simple s => [s]
  | .fragmented s => s.current :: s.it

/-- The stream has a position in the memory, a size, and pieces enough from there on. -/
structure Denotes (mem : Buffers) (s : MemoryStream) (span : Nat × Nat) : Prop where
  size : s.size = span.2
  cover : Cover mem (views s) span.1
  enough : span.2 ≤ total (views s)

variable {stream : MemoryStream} {span : Nat × Nat} {kind : StreamKind}

theorem Denotes.congr (h : Denotes mem stream span) (hshape : SameShape mem mem') :
    Denotes mem' stream span := ⟨h.size, h.cover.congr hshape, h.enough⟩

theorem total_single (s : SimpleStream) : total [s] = s.size := by
  rw [total_cons]
  rfl

/-- A piece alone. -/
theorem Cover.denotes (h : Cover mem [s] pos) : Denotes mem (.simple s) (pos, s.size) :=
  ⟨rfl, h, Nat.le_of_eq (total_single s).symm⟩

/-- What is left of a simple stream. -/
theorem Denotes.simple_rest (h : Denotes mem (.simple s) (pos, s.size)) (hn : n ≤ s.size) :
    Denotes mem (.simple { p := { s.p with offset := s.p.offset + n }, size := s.size - n })
      (pos + n, s.size - n) := (h.cover.cut hn).2.denotes

/-- `for_each_fragment` of a stream that has enough. -/
theorem Denotes.forEachFragment {s : FragmentedStream}
    (h : Denotes mem (.fragmented s) (pos, s.size)) (fault : Fault) (hn : n ≤ s.size) :
    ∃ parts rest, s.forEachFragment fault n = .ok (parts, rest) ∧ Cover mem parts pos ∧
      total parts = n ∧ Denotes mem (.fragmented rest) (pos + n, s.size - n) := by
  have henough : s.size ≤ total (s.current :: s.it) := h.enough
  have hrounds : s.it.length + (if s.current.size = 0 then 0 else 1) < s.it.length + 2 := by
    split <;> omega
  obtain ⟨parts, current, it, he, hcover, htotal, hrest, hsum⟩ :=
    loop_spec h.cover (Nat.le_trans hn henough) (Nat.succ_pos _) fun _ => hrounds
  refine ⟨parts, { it, current, size := s.size - n }, ?_, hcover, htotal, rfl, hrest, ?_⟩
  · rw [FragmentedStream.forEachFragment, if_neg (by omega), he]
    rfl
  · show s.size - n ≤ total (current :: it)
    omega

/-- A stream with less than a call asks for throws. -/
theorem Denotes.call_short (h : Denotes mem stream span) {c : Call} (hlt : span.2 < c.amount) :
    call kind mem stream c = .error kind.outOfRange := by
  rw [← h.size] at hlt
  cases stream with
  | simple s =>
    have hs : s.size < c.amount := hlt
    cases c <;> simp only [Call.amount] at hs <;>
      simp only [call, MemoryStream.skip, MemoryStream.write, MemoryStream.read,
        MemoryStream.substream, SimpleStream.skip, SimpleStream.write, SimpleStream.read,
        SimpleStream.substream, if_pos hs, Except.map]
  | fragmented s =>
    have hs : s.size < c.amount := hlt
    cases c <;> simp only [Call.amount] at hs <;>
      simp only [call, MemoryStream.skip, MemoryStream.write, MemoryStream.read,
        MemoryStream.substream, FragmentedStream.skip, FragmentedStream.write,
        FragmentedStream.read, FragmentedStream.forEachFragment, if_pos hs, error_bind, Except.map]

/-- What a call of a stream with enough does. -/
structure Done (mem : Buffers) (pos size : Nat) (c : Call) (bs : List UInt8) (mem' : Buffers)
    (s' : MemoryStream) (sub : Option MemoryStream) : Prop where
  returned : bs = Region.returned { bytes := mem.flatten, spans := [] } pos c
  shape : SameShape mem mem'
  written : mem'.flatten = Region.written { bytes := mem.flatten, spans := [] } pos c
  rest : Denotes mem' s' (pos + c.amount, size - c.amount)
  made : ∀ span ∈ Region.made pos c, ∃ t ∈ sub, Denotes mem' t span
  none : Region.made pos c = none → sub = none

/-- A call of a simple stream. -/
theorem Denotes.call_simple (h : Denotes mem (.simple s) (pos, s.size)) {c : Call}
    (hle : c.amount ≤ s.size) :
    ∃ bs mem' s' sub, call kind mem (.simple s) c = .ok (bs, mem', s', sub) ∧
      Done mem pos s.size c bs mem' s' sub := by
  have hcut := h.cover.cut hle
  have hrest := h.simple_rest hle
  cases c with
  | skip n =>
    have hlt : ¬s.size < n := Nat.not_lt.mpr hle
    refine ⟨_, mem, _, none, ?_, rfl, rfl, rfl, hrest, fun _ hm => (nomatch hm), fun _ => rfl⟩
    rw [call, MemoryStream.skip, SimpleStream.skip, if_neg hlt]
    rfl
  | write bs =>
    have hlt : ¬s.size < bs.length := Nat.not_lt.mpr hle
    have hat : bs ≠ [] → At mem { p := s.p, size := bs.length } pos :=
      fun hne => hcut.1.1 (mt List.eq_nil_of_length_eq_zero hne)
    obtain ⟨mem', he, hshape, hmem⟩ := copyTo_spec hat
    refine ⟨_, mem', _, none, ?_, rfl, hshape, hmem, hrest.congr hshape,
      fun _ hm => (nomatch hm), fun _ => rfl⟩
    rw [call, MemoryStream.write, SimpleStream.write, if_neg hlt, he, ok_bind, SimpleStream.skip,
      if_neg hlt]
    rfl
  | read n =>
    have hlt : ¬s.size < n := Nat.not_lt.mpr hle
    have hread := copyFrom_spec hcut.1.1
    refine ⟨_, mem, _, none, ?_, rfl, rfl, rfl, hrest, fun _ hm => (nomatch hm), fun _ => rfl⟩
    rw [call, MemoryStream.read, SimpleStream.read, if_neg hlt, SimpleStream.skip, if_neg hlt]
    dsimp only [Call.amount] at hread
    rw [hread]
    rfl
  | substream n =>
    have hn : n ≤ s.size := hle
    refine ⟨_, mem, _, some (.simple { p := s.p, size := n }), ?_, rfl, rfl, rfl, hrest,
      fun span hm => ?_, fun hm => nomatch hm⟩
    · rw [call, MemoryStream.substream, substream_eq hn]
      rfl
    · obtain rfl := Option.some.inj hm
      exact ⟨_, rfl, hcut.1.denotes⟩

/-- A call of a fragmented stream. -/
theorem Denotes.call_fragmented {s : FragmentedStream}
    (h : Denotes mem (.fragmented s) (pos, s.size)) {c : Call} (hle : c.amount ≤ s.size) :
    ∃ bs mem' s' sub, call kind mem (.fragmented s) c = .ok (bs, mem', s', sub) ∧
      Done mem pos s.size c bs mem' s' sub := by
  obtain ⟨parts, rest, he, hparts, htotal, hrest⟩ := h.forEachFragment kind.outOfRange hle
  cases c with
  | skip n =>
    refine ⟨_, mem, _, none, ?_, rfl, rfl, rfl, hrest, fun _ hm => (nomatch hm), fun _ => rfl⟩
    dsimp only [Call.amount] at he
    rw [call, MemoryStream.skip, FragmentedStream.skip, he]
    rfl
  | write bs =>
    obtain ⟨mem', hcopy, hshape, hmem⟩ := copyToParts_spec hparts htotal
    refine ⟨_, mem', _, none, ?_, rfl, hshape, hmem, hrest.congr hshape,
      fun _ hm => (nomatch hm), fun _ => rfl⟩
    dsimp only [Call.amount] at he
    rw [call, MemoryStream.write, FragmentedStream.write, he, ok_bind]
    dsimp only
    rw [hcopy]
    rfl
  | read n =>
    have hread := copyFromParts_spec hparts
    refine ⟨_, mem, _, none, ?_, rfl, rfl, rfl, hrest, fun _ hm => (nomatch hm), fun _ => rfl⟩
    dsimp only [Call.amount] at he htotal
    rw [htotal] at hread
    rw [call, MemoryStream.read, FragmentedStream.read, he, ok_bind]
    dsimp only
    rw [hread]
    rfl
  | substream n =>
    have hlt : ¬s.size < n := Nat.not_lt.mpr hle
    by_cases hcurrent : kind = .output ∧ n ≤ s.current.size
    · have hcut := h.cover.cut hcurrent.2
      let current : SimpleStream :=
        { p := { s.current.p with offset := s.current.p.offset + n }, size := s.current.size - n }
      refine ⟨_, mem, .fragmented { s with current, size := s.size - n },
        some (.simple { p := s.current.p, size := n }), ?_, rfl, rfl, rfl, ⟨rfl, hcut.2, ?_⟩,
        fun span hm => ?_, fun hm => nomatch hm⟩
      · rw [call, MemoryStream.substream, if_neg hlt, if_pos hcurrent, substream_eq hcurrent.2]
        rfl
      · have henough : s.size ≤ total (s.current :: s.it) := h.enough
        rw [total_cons] at henough
        show s.size - n ≤ total (_ :: s.it)
        rw [total_cons]
        show s.size - n ≤ s.current.size - n + total s.it
        omega
      · obtain rfl := Option.some.inj hm
        exact ⟨_, rfl, hcut.1.denotes⟩
    · refine ⟨_, mem, .fragmented rest, some (.fragmented { s with size := n }), ?_, rfl, rfl, rfl,
        hrest, fun span hm => ?_, fun hm => nomatch hm⟩
      · dsimp only [Call.amount] at he
        rw [call, MemoryStream.substream, if_neg hlt, if_neg hcurrent, FragmentedStream.skip, he]
        rfl
      · obtain rfl := Option.some.inj hm
        exact ⟨_, rfl, rfl, h.cover, Nat.le_trans hle h.enough⟩

/-- A call of a stream with enough. -/
theorem Denotes.call (h : Denotes mem stream span) (kind : StreamKind) {c : Call}
    (hle : c.amount ≤ span.2) :
    ∃ bs mem' s' sub, call kind mem stream c = .ok (bs, mem', s', sub) ∧
      Done mem span.1 span.2 c bs mem' s' sub := by
  obtain ⟨pos, size⟩ := span
  obtain rfl : stream.size = size := h.size
  cases stream with
  | simple s => exact h.call_simple hle
  | fragmented s => exact h.call_fragmented hle

/-! ## Runs -/

/-- The streams are at the positions of the region. -/
structure Refines (st : State) (r : Region) : Prop where
  bytes : st.mem.flatten = r.bytes
  streams : List.Forall₂ (Denotes st.mem) st.streams r.spans
  results : st.results = r.results

section Pairs

variable {α β : Type} {R : α → β → Prop} {as : List α} {bs : List β} {a : α} {b : β} {i : Nat}

/-- The partner of an element. -/
theorem forall₂_getElem? (h : List.Forall₂ R as bs) (ha : as[i]? = some a) :
    ∃ b, bs[i]? = some b ∧ R a b := by
  induction h generalizing i with
  | nil => cases ha
  | cons hab _ ih =>
    cases i with
    | zero =>
      obtain rfl := Option.some.inj ha
      exact ⟨_, rfl, hab⟩
    | succ i => exact ih ha

theorem forall₂_set (h : List.Forall₂ R as bs) (hab : R a b) (i : Nat) :
    List.Forall₂ R (as.set i a) (bs.set i b) := by
  induction h generalizing i with
  | nil => exact List.Forall₂.nil
  | cons hab' htail ih =>
    cases i with
    | zero => exact List.Forall₂.cons hab htail
    | succ i => exact List.Forall₂.cons hab' (ih i)

end Pairs

variable {st : State} {r : Region} {c : Nat × Call} {cs : List (Nat × Call)}

/-- The substream of a call is at the position of the region's. -/
theorem Done.substreams {size : Nat} {c : Call} {s' : MemoryStream} {sub : Option MemoryStream}
    (h : Done mem pos size c bs mem' s' sub) :
    List.Forall₂ (Denotes mem') sub.toList (Region.made pos c).toList := by
  cases hmade : Region.made pos c with
  | none =>
    rw [h.none hmade]
    exact List.Forall₂.nil
  | some span =>
    obtain ⟨t, hsub, ht⟩ := h.made span hmade
    rw [Option.mem_def.mp hsub]
    exact List.Forall₂.cons ht List.Forall₂.nil

theorem returned_congr {r r' : Region} (h : r.bytes = r'.bytes) (pos : Nat) (c : Call) :
    r.returned pos c = r'.returned pos c := by
  cases c <;> simp only [Region.returned, h]

theorem written_congr {r r' : Region} (h : r.bytes = r'.bytes) (pos : Nat) (c : Call) :
    r.written pos c = r'.written pos c := by
  cases c <;> simp only [Region.written, h]

/-- A call does to the streams what it does to the positions. -/
theorem Refines.step (h : Refines st r) (hvalid : Valid kind st c) :
    ∃ st', step kind st c = .ok st' ∧ Refines st' (r.step c) := by
  obtain ⟨i, c⟩ := c
  have hi : i < st.streams.length := by cases c <;> simp only [Valid] at hvalid <;> omega
  obtain ⟨s, hs⟩ : ∃ s, st.streams[i]? = some s := ⟨_, List.getElem?_eq_getElem hi⟩
  obtain ⟨⟨pos, size⟩, hspan, hdenotes⟩ := forall₂_getElem? h.streams hs
  simp only [MemoryStreams.step, Region.step, hs, hspan]
  by_cases hlt : size < c.amount
  · rw [hdenotes.call_short hlt, if_pos hlt]
    dsimp only
    rw [if_pos rfl]
    exact ⟨_, rfl, h.bytes, h.streams, congrArg (· ++ [none]) h.results⟩
  · obtain ⟨bs, mem', s', sub, he, hdone⟩ := hdenotes.call kind (Nat.not_lt.mp hlt)
    rw [he, if_neg hlt]
    have hother := h.streams.imp fun _ _ hd => hd.congr hdone.shape
    refine ⟨_, rfl, ?_, List.rel_append (forall₂_set hother hdone.rest i) hdone.substreams, ?_⟩
    · exact hdone.written.trans (written_congr h.bytes pos c)
    · show st.results ++ [some bs] = r.results ++ [some (r.returned pos c)]
      rw [h.results, hdone.returned, returned_congr h.bytes]

/-- ... and so do all of them. -/
theorem Refines.run (h : Refines st r)
    (hvalid : Run.Along (MemoryStreams.step kind) (Valid kind) st cs) :
    ∃ st', MemoryStreams.run kind st cs = .ok st' ∧ Refines st' (r.run cs) := by
  induction cs generalizing st r with
  | nil => exact ⟨st, rfl, h⟩
  | cons c cs ih =>
    obtain ⟨st₁, hstep, h₁⟩ := h.step hvalid.1
    obtain ⟨st₂, hrun, h₂⟩ := ih h₁ (hvalid.2 st₁ hstep)
    exact ⟨st₂, Run.run_cons_ok.mpr ⟨st₁, hstep, hrun⟩, h₂⟩

/-- The sizes of streams at the positions of a region. -/
theorem Refines.sizes (h : Refines st r) :
    st.streams.map MemoryStream.size = r.spans.map Prod.snd := by
  rw [← List.forall₂_eq_eq_eq, List.forall₂_map_left_iff, List.forall₂_map_right_iff]
  exact h.streams.imp fun _ _ hd => hd.size

/-- Which calls are of streams that are there, the positions say. -/
theorem Refines.valid_iff {st' : State} (h : Refines st r) (h' : Refines st' r) :
    Valid kind st c ↔ Valid kind st' c := by
  have hlen := h.streams.length_eq.trans h'.streams.length_eq.symm
  obtain ⟨i, c⟩ := c
  cases c <;> simp only [Valid, hlen]

/-- Streams at the same positions can be called in the same ways. -/
theorem Refines.along {st' : State} (h : Refines st r) (h' : Refines st' r)
    (hvalid : Run.Along (MemoryStreams.step kind) (Valid kind) st cs) :
    Run.Along (MemoryStreams.step kind) (Valid kind) st' cs := by
  induction cs generalizing st st' r with
  | nil => trivial
  | cons c cs ih =>
    have hvalid' := (h.valid_iff h').mp hvalid.1
    refine ⟨hvalid', fun st'' hstep' => ?_⟩
    obtain ⟨st₁, hstep, h₁⟩ := h.step hvalid.1
    obtain ⟨st₂, hstep₂, h₂⟩ := h'.step hvalid'
    obtain rfl := Except.ok.inj (hstep'.symm.trans hstep₂)
    exact ih h₁ h₂ (hvalid.2 st₁ hstep)

/-! ## Fragments beside one piece -/

/-- The last buffers of a memory are next to each other. -/
theorem cover_mapIdx (pre post : Buffers) :
    Cover (pre ++ post) (post.mapIdx fun i b =>
      { p := { buffer := pre.length + i }, size := b.length }) pre.flatten.length := by
  induction post generalizing pre with
  | nil => trivial
  | cons b post ih =>
    rw [List.mapIdx_cons]
    refine ⟨fun _ => ⟨b, ?_, ?_, ?_⟩, ?_⟩
    · simp
    · simp
    · simp [Fragments.start]
    · have hrest := ih (pre ++ [b])
      simpa [Nat.add_assoc, Nat.add_comm 1] using hrest

theorem total_fragments (mem : Buffers) : total (fragments mem) = mem.flatten.length := by
  rw [total, fragments, List.length_flatten]
  congr 1
  apply List.ext_getElem?
  intro i
  simp only [List.getElem?_map, List.getElem?_mapIdx, Option.map_map]
  rfl

variable {size : Nat}

/-- A fragmented stream over a memory is at its beginning. -/
theorem refines_fragmented (hsize : size ≤ mem.flatten.length) :
    Refines (fragmented mem size) { bytes := mem.flatten, spans := [(0, size)] } := by
  have hcover := cover_mapIdx [] mem
  simp only [List.length_nil, Nat.zero_add, List.nil_append, List.flatten_nil] at hcover
  refine ⟨rfl, List.Forall₂.cons ⟨rfl, ⟨fun hne => absurd rfl hne, hcover⟩, ?_⟩
    List.Forall₂.nil, rfl⟩
  show size ≤ total ({} :: fragments mem)
  rw [total_cons, total_fragments]
  exact Nat.le_trans hsize (Nat.le_add_left _ _)

/-- ... and so is the simple stream. -/
theorem refines_simple (hsize : size ≤ mem.flatten.length) :
    Refines (simple mem size) { bytes := mem.flatten, spans := [(0, size)] } := by
  refine ⟨by simp [simple], List.Forall₂.cons (Cover.denotes ?_) List.Forall₂.nil, rfl⟩
  exact ⟨fun _ => ⟨mem.flatten, rfl, by simpa using hsize, rfl⟩, trivial⟩

/-! ## Measuring -/

/-- A measuring stream after the writes. -/
def measured (sizes : List UInt64) : MeasuringStream :=
  sizes.foldl (fun s n => s.write n) {}

theorem foldl_write (sizes : List UInt64) (s : MeasuringStream) :
    (sizes.foldl (fun s n => s.write n) s).size.toNat =
      (s.size.toNat + (sizes.map UInt64.toNat).sum) % 2 ^ 64 := by
  induction sizes generalizing s with
  | nil => exact (Nat.mod_eq_of_lt s.size.toNat_lt).symm
  | cons n sizes ih =>
    rw [List.foldl_cons, ih, List.map_cons, List.sum_cons, ← Nat.add_assoc]
    show ((s.size + n).toNat + _) % _ = _
    rw [UInt64.toNat_add, Nat.mod_add_mod]

/-- What a measuring stream reports are the bytes written, modulo 2^64. -/
theorem measured_size (sizes : List UInt64) :
    (measured sizes).size.toNat = (sizes.map UInt64.toNat).sum % 2 ^ 64 := by
  rw [measured, foldl_write]
  show (0 + _) % _ = _
  rw [Nat.zero_add]

/-- Four writes of 2^62 bytes are measured as none. -/
theorem measured_wraps :
    ¬∀ sizes : List UInt64, (measured sizes).size.toNat = (sizes.map UInt64.toNat).sum := by
  intro h
  exact absurd (h [0x4000000000000000, 0x4000000000000000, 0x4000000000000000,
    0x4000000000000000]) (by decide)

/-! ## Fragmented streams do what simple ones do -/

/-- For every division of a memory into fragments and all calls of the streams over it, their
substreams among them, the fragmented streams put and return the bytes of the simple stream over
the concatenated memory and of its substreams, throw where these throw, and have their sizes; and
a measuring stream counts the bytes modulo 2^64. -/
theorem fragmented_as_simple :
    (∀ (kind : StreamKind) (mem : Buffers) (size : Nat) (cs : List (Nat × Call)),
      size ≤ mem.flatten.length →
      Run.Along (step kind) (Valid kind) (fragmented mem size) cs →
      ∃ f s, run kind (fragmented mem size) cs = .ok f ∧ run kind (simple mem size) cs = .ok s ∧
        f.results = s.results ∧ f.mem.flatten = s.mem.flatten ∧
        f.streams.map MemoryStream.size = s.streams.map MemoryStream.size) ∧
    ∀ sizes : List UInt64,
      (measured sizes).size.toNat = (sizes.map UInt64.toNat).sum % 2 ^ 64 := by
  constructor
  · intro kind mem size cs hsize hvalid
    have hf := refines_fragmented hsize
    have hs := refines_simple hsize
    obtain ⟨f, hrunf, hf'⟩ := hf.run hvalid
    obtain ⟨s, hruns, hs'⟩ := hs.run (hf.along hs hvalid)
    refine ⟨f, s, hrunf, hruns, ?_, ?_, ?_⟩
    · exact hf'.results.trans hs'.results.symm
    · exact hf'.bytes.trans hs'.bytes.symm
    · exact hf'.sizes.trans hs'.sizes.symm
  · exact measured_size

/-- Five bytes in three fragments, the second of them empty: a write over its end, a substream of
two bytes and writes into both streams, of which the last throws. -/
theorem fragmented_as_simple_five :
    ∃ f s, run .output (fragmented [[0, 0], [], [0, 0, 0]] 5)
        [(0, .write [1]), (0, .substream 2), (0, .write [4, 5]), (1, .write [2, 3]),
          (1, .write [6])] = .ok f ∧
      run .output (simple [[0, 0], [], [0, 0, 0]] 5)
        [(0, .write [1]), (0, .substream 2), (0, .write [4, 5]), (1, .write [2, 3]),
          (1, .write [6])] = .ok s ∧
      f.results = s.results ∧ f.mem.flatten = s.mem.flatten ∧
      f.streams.map MemoryStream.size = s.streams.map MemoryStream.size :=
  fragmented_as_simple.1 .output [[0, 0], [], [0, 0, 0]] 5 _ (by decide) (by decide +kernel)

/-- ... and so do the bytes that these streams put. -/
example :
    (run .output (fragmented [[0, 0], [], [0, 0, 0]] 5)
      [(0, .write [1]), (0, .substream 2), (0, .write [4, 5]), (1, .write [2, 3]),
        (1, .write [6])]).map (fun st => (st.mem, st.results)) =
    .ok ([[1, 2], [], [3, 4, 5]], [some [], some [], some [], some [], none]) := by
  decide +kernel

end MemoryStreams

end Seastar
