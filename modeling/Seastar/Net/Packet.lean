import Mathlib.Tactic.Linarith
import Mathlib.Algebra.BigOperators.Group.List.Basic
import Seastar.Core.Fault

/-!
The network packet of `net/packet.hh` and `net/packet.cc`: a vector of fragments
with a cached length. A fragment is the byte string its `base` and `size`
denote, so sharing and moving buffers leave the model unchanged; what is kept
is the division into fragments, because `get_header` promises contiguous memory
only inside one of them.

`_len` is a field of its own, as in the source, and the structure carries the
proof that it is the sum of the fragment sizes.
-/

namespace Seastar.Net

abbrev Byte := UInt8
abbrev Bytes := List Byte

/-- Total size of a vector of fragments. -/
def fragsLen (fs : List Bytes) : Nat := (fs.map List.length).sum

@[simp] theorem fragsLen_nil : fragsLen [] = 0 := rfl

@[simp] theorem fragsLen_cons (f : Bytes) (fs : List Bytes) :
    fragsLen (f :: fs) = f.length + fragsLen fs := by
  simp [fragsLen]

@[simp] theorem fragsLen_append (fs gs : List Bytes) :
    fragsLen (fs ++ gs) = fragsLen fs + fragsLen gs := by
  simp [fragsLen]

@[simp] theorem fragsLen_reverse (fs : List Bytes) : fragsLen fs.reverse = fragsLen fs := by
  simp [fragsLen]

theorem length_flatten_frags (fs : List Bytes) : fs.flatten.length = fragsLen fs :=
  List.length_flatten

/-- `packet::impl`: the fragments and their cached total length. -/
structure Packet where
  frags : List Bytes
  len : Nat
  len_eq : len = fragsLen frags
  deriving DecidableEq, Repr

namespace Packet

/-- The byte string a packet stands for. -/
def bytes (p : Packet) : Bytes := p.frags.flatten

/-- `packet(std::vector<fragment>, deleter)`. -/
def ofFrags (fs : List Bytes) : Packet := ⟨fs, fragsLen fs, rfl⟩

/-- `packet()`: no fragments. -/
def empty : Packet := ofFrags []

@[simp] theorem bytes_ofFrags (fs : List Bytes) : (ofFrags fs).bytes = fs.flatten := rfl

@[simp] theorem len_empty : empty.len = 0 := rfl

/-- The cached length is the length of the byte string. -/
@[simp] theorem length_bytes (p : Packet) : p.bytes.length = p.len := by
  rw [bytes, length_flatten_frags, p.len_eq]

theorem bytes_eq_nil_of_len (p : Packet) (h : p.len = 0) : p.bytes = [] := by
  apply List.eq_nil_of_length_eq_zero
  simpa using h

/-! ## Trimming -/

/-- The fragment loop of `trim_front`: whole fragments go first, then the next
one is cut. -/
def trimFrontFrags : Nat → List Bytes → List Bytes
  | 0, fs => fs
  | _ + 1, [] => []
  | n + 1, f :: fs =>
    if n + 1 ≥ f.length then trimFrontFrags (n + 1 - f.length) fs else f.drop (n + 1) :: fs

theorem trimFrontFrags_flatten (n : Nat) (fs : List Bytes) :
    (trimFrontFrags n fs).flatten = fs.flatten.drop n := by
  induction fs generalizing n with
  | nil => cases n <;> simp [trimFrontFrags]
  | cons f fs ih =>
    cases n with
    | zero => rfl
    | succ n =>
      rw [trimFrontFrags]
      split
      · rename_i h
        rw [ih, List.flatten_cons, List.drop_append, List.drop_eq_nil_of_le h, List.nil_append]
      · rename_i h
        rw [List.flatten_cons, List.flatten_cons, List.drop_append_of_le_length (by omega)]

/-- `packet::trim_front`, with its `assert(how_much <= _len)`. -/
def trimFront (p : Packet) (howMuch : Nat) : Except Fault Packet :=
  if h : howMuch ≤ p.len then
    .ok ⟨trimFrontFrags howMuch p.frags, p.len - howMuch, by
      rw [← length_flatten_frags, trimFrontFrags_flatten, List.length_drop, length_flatten_frags,
        p.len_eq]⟩
  else .error .trimTooLong

/-- The fragment loop of `trim_back`, which walks the fragments from the last. -/
def trimBackFrags (n : Nat) (fs : List Bytes) : List Bytes :=
  (loop n fs.reverse).reverse
where
  loop : Nat → List Bytes → List Bytes
    | 0, gs => gs
    | _ + 1, [] => []
    | n + 1, g :: gs =>
      if n + 1 ≥ g.length then loop (n + 1 - g.length) gs
      else g.take (g.length - (n + 1)) :: gs

theorem trimBackFrags_loop_flatten (n : Nat) (gs : List Bytes) :
    (trimBackFrags.loop n gs).reverse.flatten =
      gs.reverse.flatten.take (fragsLen gs - n) := by
  induction gs generalizing n with
  | nil => cases n <;> simp [trimBackFrags.loop]
  | cons g gs ih =>
    have hlen : gs.reverse.flatten.length = fragsLen gs := by
      rw [length_flatten_frags, fragsLen_reverse]
    cases n with
    | zero =>
      rw [trimBackFrags.loop, Nat.sub_zero, List.take_of_length_le]
      exact Nat.le_of_eq (by rw [length_flatten_frags, fragsLen_reverse])
    | succ n =>
      rw [trimBackFrags.loop]
      split
      · rename_i h
        rw [ih, List.reverse_cons, List.flatten_append, fragsLen_cons,
          List.take_append_of_le_length (by rw [hlen]; omega)]
        congr 1
        omega
      · rename_i h
        simp only [List.reverse_cons, List.flatten_append, List.flatten_cons, List.flatten_nil,
          List.append_nil, fragsLen_cons]
        have hall : gs.reverse.flatten.take (g.length + fragsLen gs - (n + 1)) =
            gs.reverse.flatten := List.take_of_length_le (by rw [hlen]; omega)
        rw [List.take_append, hall, hlen]
        congr 2
        omega

theorem trimBackFrags_flatten (n : Nat) (fs : List Bytes) :
    (trimBackFrags n fs).flatten = fs.flatten.take (fragsLen fs - n) := by
  have h := trimBackFrags_loop_flatten n fs.reverse
  rwa [List.reverse_reverse, fragsLen_reverse] at h

/-- `packet::trim_back`, with its `assert(how_much <= _len)`. -/
def trimBack (p : Packet) (howMuch : Nat) : Except Fault Packet :=
  if h : howMuch ≤ p.len then
    .ok ⟨trimBackFrags howMuch p.frags, p.len - howMuch, by
      rw [← length_flatten_frags, trimBackFrags_flatten, List.length_take, length_flatten_frags,
        p.len_eq]
      omega⟩
  else .error .trimTooLong

theorem trimFront_ok {p : Packet} {n : Nat} (h : n ≤ p.len) :
    ∃ q, p.trimFront n = .ok q ∧ q.bytes = p.bytes.drop n ∧ q.len = p.len - n := by
  refine ⟨_, dif_pos h, ?_, rfl⟩
  exact trimFrontFrags_flatten n p.frags

theorem trimFront_spec {p q : Packet} {n : Nat} (h : p.trimFront n = .ok q) :
    n ≤ p.len ∧ q.bytes = p.bytes.drop n ∧ q.len = p.len - n := by
  unfold trimFront at h
  split at h
  · rename_i hn
    obtain rfl := Except.ok.inj h
    exact ⟨hn, trimFrontFrags_flatten n p.frags, rfl⟩
  · cases h

theorem trimFront_error {p : Packet} {n : Nat} {e : Fault} (h : p.trimFront n = .error e) :
    e = .trimTooLong ∧ p.len < n := by
  unfold trimFront at h
  split at h
  · cases h
  · exact ⟨(Except.error.inj h).symm, by omega⟩

theorem trimBack_ok {p : Packet} {n : Nat} (h : n ≤ p.len) :
    ∃ q, p.trimBack n = .ok q ∧ q.bytes = p.bytes.take (p.len - n) ∧ q.len = p.len - n := by
  refine ⟨_, dif_pos h, ?_, rfl⟩
  have := trimBackFrags_flatten n p.frags
  rwa [← p.len_eq] at this

/-! ## Concatenation and contiguity -/

/-- `packet::append`. -/
def append (x p : Packet) : Packet :=
  if x.len = 0 then p
  else ⟨x.frags ++ p.frags, x.len + p.len, by rw [fragsLen_append, ← x.len_eq, ← p.len_eq]⟩

@[simp] theorem bytes_append (x p : Packet) : (x.append p).bytes = x.bytes ++ p.bytes := by
  unfold append
  split
  · rename_i h
    rw [bytes_eq_nil_of_len x h, List.nil_append]
  · exact List.flatten_append

@[simp] theorem len_append (x p : Packet) : (x.append p).len = x.len + p.len := by
  rw [← length_bytes, bytes_append, List.length_append, length_bytes, length_bytes]

/-- The copy loop of `linearize`: the bytes of the leading fragments until
`desired` of them are gathered, and the fragments left over. -/
def gather : Nat → List Bytes → Bytes × List Bytes
  | 0, fs => ([], fs)
  | _ + 1, [] => ([], [])
  | n + 1, f :: fs => (f ++ (gather (n + 1 - f.length) fs).1, (gather (n + 1 - f.length) fs).2)

theorem gather_append (n : Nat) (fs : List Bytes) :
    (gather n fs).1 ++ (gather n fs).2.flatten = fs.flatten := by
  induction fs generalizing n with
  | nil => cases n <;> simp [gather]
  | cons f fs ih =>
    cases n with
    | zero => rfl
    | succ n => rw [gather, List.append_assoc, ih, List.flatten_cons]

theorem le_length_gather (n : Nat) (fs : List Bytes) (h : n ≤ fragsLen fs) :
    n ≤ (gather n fs).1.length := by
  induction fs generalizing n with
  | nil => simp_all
  | cons f fs ih =>
    cases n with
    | zero => omega
    | succ n =>
      rw [fragsLen_cons] at h
      have := ih (n + 1 - f.length) (by omega)
      rw [gather, List.length_append]
      omega

/-- `packet::linearize(at_frag, desired_size)`: the fragments from `at_frag` on are
collapsed into one until it holds `desired_size` bytes. -/
def linearizeAt (p : Packet) (atFrag desired : Nat) : Packet :=
  ⟨p.frags.take atFrag ++
      (gather desired (p.frags.drop atFrag)).1 :: (gather desired (p.frags.drop atFrag)).2,
    p.len, by
      have h := congrArg List.length (gather_append desired (p.frags.drop atFrag))
      rw [List.length_append, length_flatten_frags, length_flatten_frags] at h
      rw [fragsLen_append, fragsLen_cons, h, ← fragsLen_append, List.take_append_drop, p.len_eq]⟩

/-- `packet::linearize()`. -/
def linearize (p : Packet) : Packet := p.linearizeAt 0 p.len

@[simp] theorem bytes_linearizeAt (p : Packet) (i n : Nat) : (p.linearizeAt i n).bytes = p.bytes := by
  simp only [bytes, linearizeAt, List.flatten_append, List.flatten_cons, gather_append]
  rw [← List.flatten_append, List.take_append_drop]

@[simp] theorem bytes_linearize (p : Packet) : p.linearize.bytes = p.bytes :=
  bytes_linearizeAt p 0 p.len

@[simp] theorem len_linearize (p : Packet) : p.linearize.len = p.len := rfl

/-! ## Sharing -/

/-- The first loop of `share`: skip whole fragments in front of `offset`. -/
def seek : Nat → List Bytes → Nat × List Bytes
  | 0, fs => (0, fs)
  | n + 1, [] => (n + 1, [])
  | n + 1, f :: fs => if n + 1 ≥ f.length then seek (n + 1 - f.length) fs else (n + 1, f :: fs)

/-- The second loop of `share`: take fragments until `len` bytes are collected.
Walking past the last fragment is the out-of-range read of the source. -/
def collect : Nat → Nat → List Bytes → Option (List Bytes)
  | _, 0, _ => some []
  | _, _ + 1, [] => none
  | off, n + 1, f :: fs =>
    (collect 0 (n + 1 - (f.length - off)) fs).map (((f.drop off).take (n + 1)) :: ·)

theorem seek_spec (n : Nat) (fs : List Bytes) :
    (seek n fs).2.flatten.drop (seek n fs).1 = fs.flatten.drop n ∧
      (∀ f gs, (seek n fs).2 = f :: gs → (seek n fs).1 = 0 ∨ (seek n fs).1 < f.length) := by
  induction fs generalizing n with
  | nil => cases n <;> simp [seek]
  | cons f fs ih =>
    cases n with
    | zero => exact ⟨rfl, fun _ _ _ => Or.inl rfl⟩
    | succ n =>
      rw [seek]
      split
      · rename_i h
        refine ⟨?_, (ih _).2⟩
        rw [(ih _).1, List.flatten_cons, List.drop_append, List.drop_eq_nil_of_le h,
          List.nil_append]
      · rename_i h
        refine ⟨rfl, fun g gs hg => Or.inr ?_⟩
        obtain ⟨rfl, rfl⟩ := List.cons.inj hg
        simp only
        omega

theorem collect_isSome_iff (off n : Nat) (fs : List Bytes)
    (hoff : ∀ f gs, fs = f :: gs → off ≤ f.length) :
    (∃ gs, collect off n fs = some gs) ↔ n ≤ (fs.flatten.drop off).length := by
  induction fs generalizing off n with
  | nil => cases n <;> simp [collect]
  | cons f fs ih =>
    have hf := hoff f fs rfl
    cases n with
    | zero => simp [collect]
    | succ n =>
      have hi := ih 0 (n + 1 - (f.length - off)) (fun _ _ _ => Nat.zero_le _)
      have hl : ((f :: fs).flatten.drop off).length = f.length - off + fs.flatten.length := by
        simp only [List.flatten_cons, List.length_drop, List.length_append]
        omega
      rw [List.drop_zero] at hi
      rw [hl]
      constructor
      · rintro ⟨gs, hgs⟩
        rw [collect, Option.map_eq_some_iff] at hgs
        obtain ⟨gs', hgs', -⟩ := hgs
        have := hi.mp ⟨gs', hgs'⟩
        omega
      · intro h
        obtain ⟨gs', hgs'⟩ := hi.mpr (by omega)
        exact ⟨_, by rw [collect, hgs']; rfl⟩

theorem collect_flatten (off n : Nat) (fs gs : List Bytes)
    (hoff : ∀ f gs, fs = f :: gs → off ≤ f.length) (h : collect off n fs = some gs) :
    gs.flatten = (fs.flatten.drop off).take n := by
  induction fs generalizing off n gs with
  | nil =>
    cases n with
    | zero => simp_all [collect]
    | succ n => simp [collect] at h
  | cons f fs ih =>
    have hf := hoff f fs rfl
    cases n with
    | zero =>
      simp only [collect, Option.some.injEq] at h
      simp [← h]
    | succ n =>
      rw [collect, Option.map_eq_some_iff] at h
      obtain ⟨gs', hgs', rfl⟩ := h
      have hi := ih 0 _ gs' (fun _ _ _ => Nat.zero_le _) hgs'
      rw [List.flatten_cons, hi, List.drop_zero, List.flatten_cons, List.drop_append_of_le_length hf,
        List.take_append, List.length_drop]

/-- `packet::share(offset, len)`. -/
def share (p : Packet) (offset len : Nat) : Except Fault Packet :=
  match collect (seek offset p.frags).1 len (seek offset p.frags).2 with
  | some fs => .ok (ofFrags fs)
  | none => .error .shareTooLong

private theorem seek_offset_le (n : Nat) (fs : List Bytes) :
    ∀ f gs, (seek n fs).2 = f :: gs → (seek n fs).1 ≤ f.length := by
  intro f gs h
  rcases (seek_spec n fs).2 f gs h with h' | h' <;> omega

theorem share_spec {p q : Packet} {offset len : Nat} (h : p.share offset len = .ok q) :
    q.bytes = (p.bytes.drop offset).take len := by
  unfold share at h
  split at h
  · rename_i fs hfs
    obtain rfl := Except.ok.inj h
    rw [bytes_ofFrags, collect_flatten _ _ _ _ (seek_offset_le offset p.frags) hfs,
      (seek_spec offset p.frags).1]
    rfl
  · cases h

theorem share_isOk_iff (p : Packet) (offset len : Nat) :
    (∃ q, p.share offset len = .ok q) ↔ len ≤ p.len - offset := by
  have h := collect_isSome_iff (seek offset p.frags).1 len _ (seek_offset_le offset p.frags)
  rw [(seek_spec offset p.frags).1] at h
  rw [show (p.frags.flatten.drop offset).length = p.len - offset by
    rw [List.length_drop, length_flatten_frags, p.len_eq]] at h
  rw [← h, share]
  cases collect (seek offset p.frags).1 len (seek offset p.frags).2 with
  | none => simp
  | some fs => simp

theorem share_len {p q : Packet} {offset len : Nat} (h : p.share offset len = .ok q) :
    q.len = len := by
  have hle := (share_isOk_iff p offset len).mp ⟨q, h⟩
  rw [← length_bytes, share_spec h, List.length_take, List.length_drop, length_bytes]
  omega

/-- `packet::share()`. -/
def shareAll (p : Packet) : Except Fault Packet := p.share 0 p.len

theorem shareAll_ok (p : Packet) : ∃ q, p.shareAll = .ok q ∧ q.bytes = p.bytes ∧ q.len = p.len := by
  obtain ⟨q, hq⟩ := (share_isOk_iff p 0 p.len).mpr (by omega)
  refine ⟨q, hq, ?_, share_len hq⟩
  rw [share_spec hq, List.drop_zero, List.take_of_length_le (by simp)]

/-! ## Header pointers -/

/-- The skip loop of `get_header`: the fragment `offset` falls into and the offset
inside it. -/
def locate : Nat → List Bytes → Option (Nat × Nat)
  | _, [] => none
  | n, f :: fs =>
    if n ≥ f.length then (locate (n - f.length) fs).map fun r => (r.1 + 1, r.2) else some (0, n)

theorem locate_isSome (n : Nat) (fs : List Bytes) (h : n < fragsLen fs) :
    ∃ r, locate n fs = some r := by
  induction fs generalizing n with
  | nil => simp at h
  | cons f fs ih =>
    rw [locate]
    split
    · obtain ⟨r, hr⟩ := ih (n - f.length) (by rw [fragsLen_cons] at h; omega)
      exact ⟨_, by rw [hr]; rfl⟩
    · exact ⟨_, rfl⟩

theorem locate_spec {n i off : Nat} {fs : List Bytes} (h : locate n fs = some (i, off)) :
    i < fs.length ∧ off < (fs.getD i []).length ∧ (fs.drop i).flatten.drop off = fs.flatten.drop n := by
  induction fs generalizing n i with
  | nil => simp [locate] at h
  | cons f fs ih =>
    rw [locate] at h
    split at h
    · rename_i hn
      rw [Option.map_eq_some_iff] at h
      obtain ⟨⟨j, off'⟩, hj, he⟩ := h
      obtain ⟨rfl, rfl⟩ := Prod.mk.inj he
      obtain ⟨h₁, h₂, h₃⟩ := ih hj
      refine ⟨by simpa using h₁, by simpa using h₂, ?_⟩
      rw [List.drop_succ_cons, h₃, List.flatten_cons, List.drop_append, List.drop_eq_nil_of_le hn,
        List.nil_append]
    · rename_i hn
      obtain ⟨rfl, rfl⟩ := Prod.mk.inj (Option.some.inj h)
      exact ⟨by simp, by simpa using hn, rfl⟩

/-- What `get_header` returns: the packet, linearized where that was necessary, and
a pointer into one of its fragments. -/
structure Header where
  p : Packet
  frag : Nat
  off : Nat

/-- The memory a header pointer may be followed into: its fragment, from it on. -/
def Header.mem (h : Header) : Bytes := (h.p.frags.getD h.frag []).drop h.off

/-- `packet::get_header(offset, size)`; `none` is the null pointer. -/
def getHeader (p : Packet) (offset size : Nat) : Option Header :=
  if offset + size > p.len then none
  else
    match locate offset p.frags with
    | none => none
    | some (i, off) =>
      if off + size > (p.frags.getD i []).length then some ⟨p.linearizeAt i (off + size), i, off⟩
      else some ⟨p, i, off⟩

/-- A null pointer means that the packet is too short. -/
theorem getHeader_eq_none (p : Packet) (offset size : Nat) (hs : 0 < size) :
    p.getHeader offset size = none ↔ p.len < offset + size := by
  unfold getHeader
  split
  · rename_i h
    simpa using h
  · rename_i h
    obtain ⟨⟨i, off⟩, hr⟩ := locate_isSome offset p.frags (by rw [← p.len_eq]; omega)
    rw [hr]
    simp only
    split <;> simp <;> omega

/-- The pointer denotes the bytes at `offset`, and its fragment holds all `size` of them. -/
theorem getHeader_spec {p : Packet} {offset size : Nat} {h : Header}
    (hh : p.getHeader offset size = some h) :
    h.p.bytes = p.bytes ∧ offset + size ≤ p.len ∧ size ≤ h.mem.length ∧
      h.mem <+: p.bytes.drop offset := by
  unfold getHeader at hh
  split at hh
  · cases hh
  rename_i hlen
  split at hh
  · cases hh
  rename_i i off hloc
  obtain ⟨hi, hoff, hdrop⟩ := locate_spec hloc
  have hsplit : p.frags.drop i = p.frags.getD i [] :: p.frags.drop (i + 1) := by
    rw [List.getD_eq_getElem?_getD, List.getElem?_eq_getElem hi]
    exact List.drop_eq_getElem_cons hi
  split at hh
  · obtain rfl := Option.some.inj hh
    have hget : (p.linearizeAt i (off + size)).frags.getD i [] =
        (gather (off + size) (p.frags.drop i)).1 := by
      simp only [linearizeAt]
      rw [List.getD_eq_getElem?_getD, List.getElem?_append_right (by simp),
        List.length_take_of_le hi.le, Nat.sub_self]
      rfl
    have hrest : off + size ≤ fragsLen (p.frags.drop i) := by
      have h := congrArg List.length hdrop
      rw [List.length_drop, List.length_drop, length_flatten_frags, length_flatten_frags,
        ← p.len_eq] at h
      have : off < fragsLen (p.frags.drop i) := by
        rw [hsplit, fragsLen_cons]
        omega
      omega
    refine ⟨bytes_linearizeAt p i _, by omega, ?_, ?_⟩
    · have := le_length_gather _ _ hrest
      rw [Header.mem, hget, List.length_drop]
      show size ≤ _ - off
      omega
    · rw [Header.mem, hget]
      show _ <+: p.frags.flatten.drop offset
      rw [← hdrop, ← gather_append (off + size) (p.frags.drop i), List.drop_append_of_le_length
        (by have := le_length_gather _ _ hrest; omega)]
      exact List.prefix_append _ _
  · obtain rfl := Option.some.inj hh
    refine ⟨rfl, by omega, ?_, ?_⟩
    · rw [Header.mem, List.length_drop]
      show size ≤ (p.frags.getD i []).length - off
      omega
    · rw [Header.mem]
      show _ <+: p.frags.flatten.drop offset
      rw [← hdrop, hsplit, List.flatten_cons, List.drop_append_of_le_length hoff.le]
      exact List.prefix_append _ _

end Packet

end Seastar.Net
