import Seastar.Net.PacketImpl

/-!
What the operations of a packet do to its fragments and to its byte string. The first
fragment may be in `_data`; then `_headroom` is what is free in front of it. No
other fragment is in `_data`.
-/

namespace Seastar.Net.PacketImpl

open Lib

/-- Where the first fragment starts in `_data`; all of `_data` is in front of a buffer. -/
def front : List Fragment → Nat
  | ⟨.data, off, _⟩ :: _ => off
  | _ => internalDataSize

/-- The bytes of the fragments. -/
def sizes (fs : List Fragment) : Nat := (fs.map Fragment.size).sum

/-- The fragment points to memory that is there. -/
def Fragment.Valid (mem : Mem) (f : Fragment) : Prop :=
  match f.loc with
  | .data => f.off + f.size ≤ internalDataSize
  | .buf i => ∃ b, mem[i]? = some b ∧ f.off + f.size ≤ b.length

/-- The fragment is not in `_data`: one that starts at its end has no bytes. -/
def Fragment.Outside (f : Fragment) : Prop := f.loc = .data → f.off = internalDataSize

/-- The first fragment may be in `_data`, with `_headroom` in front of it; the others are not. -/
structure Sound (mem : Mem) (p : Impl) : Prop where
  data : p.data.length = internalDataSize
  valid : ∀ f ∈ p.frags, f.Valid mem
  outside : ∀ f ∈ p.frags.tail, f.Outside
  headroom : p.headroom = front p.frags

/-- The call returns with `P`, or fails the assertion of `operator new`. -/
def Returns {α : Type} (P : α → Prop) (x : Except Fault α) : Prop :=
  (∃ a, x = .ok a ∧ P a) ∨ x = .error .assertFailed

variable {mem mem' : Mem} {p q : Impl} {f : Fragment} {fs gs : List Fragment} {bs : Bytes}
  {data data' : Bytes}

theorem Returns.bind {α β : Type} {P : α → Prop} {Q : β → Prop} {x : Except Fault α}
    {k : α → Except Fault β} (h : Returns P x) (hk : ∀ a, P a → Returns Q (k a)) :
    Returns Q (x >>= k) := by
  rcases h with ⟨a, rfl, ha⟩ | rfl
  · exact hk a ha
  · exact Or.inr rfl

theorem Returns.mono {α : Type} {P Q : α → Prop} {x : Except Fault α} (h : Returns P x)
    (hPQ : ∀ a, P a → Q a) : Returns Q x := by
  rcases h with ⟨a, rfl, ha⟩ | rfl
  · exact Or.inl ⟨a, rfl, hPQ a ha⟩
  · exact Or.inr rfl

theorem Returns.ok {α : Type} {P : α → Prop} {a : α} (h : P a) : Returns P (.ok a) :=
  Or.inl ⟨a, rfl, h⟩

theorem Returns.of_ok {α : Type} {P : α → Prop} {x : Except Fault α} {a : α} (h : Returns P x)
    (hx : x = .ok a) : P a := by
  rcases h with ⟨b, hb, h⟩ | h
  · obtain rfl := Except.ok.inj (hx.symm.trans hb)
    exact h
  · cases hx.symm.trans h

/-! ## Fragments -/

@[simp] theorem sizes_nil : sizes [] = 0 := rfl

@[simp] theorem sizes_cons (f : Fragment) (fs : List Fragment) :
    sizes (f :: fs) = f.size + sizes fs := rfl

@[simp] theorem sizes_append (fs gs : List Fragment) : sizes (fs ++ gs) = sizes fs + sizes gs := by
  rw [sizes, List.map_append, List.sum_append]
  rfl

@[simp] theorem sizes_reverse (fs : List Fragment) : sizes fs.reverse = sizes fs := by
  induction fs with
  | nil => rfl
  | cons f fs ih =>
    rw [List.reverse_cons, sizes_append, ih, sizes_cons, sizes_cons, sizes_nil]
    omega

theorem front_of_outside (h : ∀ f ∈ fs, f.Outside) : front fs = internalDataSize := by
  match fs with
  | [] => rfl
  | ⟨.buf i, off, size⟩ :: fs => rfl
  | ⟨.data, off, size⟩ :: fs => exact h _ List.mem_cons_self rfl

theorem usingInternalData_eq (p : Impl) :
    p.usingInternalData = decide (front p.frags < internalDataSize) := by
  unfold Impl.usingInternalData
  match p.frags with
  | [] => rfl
  | ⟨.buf i, off, size⟩ :: fs => rfl
  | ⟨.data, off, size⟩ :: fs => rfl

theorem usingInternalData_iff (p : Impl) :
    p.usingInternalData = true ↔ front p.frags < internalDataSize := by
  rw [usingInternalData_eq, decide_eq_true_iff]

/-- A packet whose first fragment is in `_data`. -/
theorem using_cases (h : p.usingInternalData = true) :
    ∃ off size fs, p.frags = ⟨.data, off, size⟩ :: fs := by
  unfold Impl.usingInternalData at h
  match hp : p.frags with
  | [] => rw [hp] at h; cases h
  | ⟨.buf i, off, size⟩ :: fs => rw [hp] at h; cases h
  | ⟨.data, off, size⟩ :: fs => exact ⟨off, size, fs, rfl⟩

theorem getElem?_of_isPrefix {i : Nat} (hm : mem <+: mem') (h : mem[i]? = some bs) :
    mem'[i]? = some bs := by
  obtain ⟨more, rfl⟩ := hm
  rw [List.getElem?_append_left (List.getElem?_eq_some_iff.mp h).1, h]

theorem Fragment.Valid.mono (h : f.Valid mem) (hm : mem <+: mem') : f.Valid mem' := by
  obtain ⟨loc, off, size⟩ := f
  cases loc with
  | data => exact h
  | buf i =>
    obtain ⟨b, hb, hle⟩ := h
    exact ⟨b, getElem?_of_isPrefix hm hb, hle⟩

/-- More buffers change no fragment. -/
theorem Fragment.Valid.bytes_mono (h : f.Valid mem) (hm : mem <+: mem') (data : Bytes) :
    f.bytes mem' data = f.bytes mem data := by
  obtain ⟨loc, off, size⟩ := f
  cases loc with
  | data => rfl
  | buf i =>
    obtain ⟨b, hb, -⟩ := h
    simp only [Fragment.bytes, List.getD_eq_getElem?_getD, hb, getElem?_of_isPrefix hm hb]

theorem Fragment.Valid.length_bytes (h : f.Valid mem) (hd : data.length = internalDataSize) :
    (f.bytes mem data).length = f.size := by
  obtain ⟨loc, off, size⟩ := f
  cases loc with
  | data =>
    have hle : off + size ≤ internalDataSize := h
    simp only [Fragment.bytes, List.length_take, List.length_drop, hd]
    omega
  | buf i =>
    obtain ⟨b, hb, hle⟩ := h
    simp only [Fragment.bytes, List.getD_eq_getElem?_getD, hb, Option.getD_some, List.length_take,
      List.length_drop]
    simp only at hle
    omega

/-- What is outside of `_data` does not depend on it. -/
theorem Fragment.Outside.bytes_congr (h : f.Outside) (hd : data.length = internalDataSize)
    (hd' : data'.length = internalDataSize) : f.bytes mem data' = f.bytes mem data := by
  obtain ⟨loc, off, size⟩ := f
  cases loc with
  | data =>
    obtain rfl : off = internalDataSize := h rfl
    simp only [Fragment.bytes]
    rw [List.drop_eq_nil_of_le (by omega), List.drop_eq_nil_of_le (by omega)]
  | buf i => rfl

theorem map_bytes_congr (h : ∀ f ∈ fs, f.Outside) (hd : data.length = internalDataSize)
    (hd' : data'.length = internalDataSize) :
    fs.map (Fragment.bytes mem data') = fs.map (Fragment.bytes mem data) :=
  List.map_congr_left fun f hf => (h f hf).bytes_congr hd hd'

/-! ## One packet -/

theorem Sound.mono (h : Sound mem p) (hm : mem <+: mem') : Sound mem' p :=
  ⟨h.data, fun f hf => (h.valid f hf).mono hm, h.outside, h.headroom⟩

theorem Sound.bytes_mono (h : Sound mem p) (hm : mem <+: mem') : p.bytes mem' = p.bytes mem :=
  congrArg List.flatten (List.map_congr_left fun f hf => (h.valid f hf).bytes_mono hm p.data)

theorem Sound.headroom_le (h : Sound mem p) : p.headroom ≤ internalDataSize := by
  rw [h.headroom]
  match hp : p.frags with
  | [] => exact Nat.le_refl _
  | ⟨.buf i, off, size⟩ :: fs => exact Nat.le_refl _
  | ⟨.data, off, size⟩ :: fs =>
    have := h.valid ⟨.data, off, size⟩ (by rw [hp]; exact List.mem_cons_self)
    change off + size ≤ internalDataSize at this
    change off ≤ internalDataSize
    omega

/-- A packet that does not use `_data` has nothing there, and all of it is headroom. -/
theorem Sound.not_using (h : Sound mem p) (hu : ¬ p.usingInternalData = true) :
    p.headroom = internalDataSize ∧ ∀ f ∈ p.frags, f.Outside := by
  have hle := h.headroom_le
  rw [usingInternalData_iff, ← h.headroom] at hu
  have hh : p.headroom = internalDataSize := by omega
  refine ⟨hh, fun f hf => ?_⟩
  match hp : p.frags with
  | [] => rw [hp] at hf; cases hf
  | g :: fs =>
    rw [hp] at hf
    rcases List.mem_cons.mp hf with rfl | hf
    · intro hl
      have := h.headroom
      rw [hp, hh] at this
      obtain ⟨loc, off, size⟩ := f
      obtain rfl : loc = .data := hl
      exact this.symm
    · exact h.outside f (by rw [hp]; exact hf)

/-- A packet that uses `_data` has its first fragment there, and the others outside. -/
theorem Sound.using_data (h : Sound mem p) (hu : p.usingInternalData = true) :
    ∃ off size fs, p.frags = ⟨.data, off, size⟩ :: fs ∧ p.headroom = off ∧
      (Fragment.mk .data off size).Valid mem ∧ ∀ f ∈ fs, f.Outside ∧ f.Valid mem := by
  obtain ⟨off, size, fs, hp⟩ := using_cases hu
  have hhead := h.headroom
  have hvalid := h.valid
  have hout := h.outside
  rw [hp] at hhead hvalid hout
  exact ⟨off, size, fs, hp, hhead, hvalid _ List.mem_cons_self,
    fun f hf => ⟨hout f hf, hvalid f (List.mem_cons_of_mem _ hf)⟩⟩

/-- Some fragments of a packet. -/
theorem Sound.valid_append (h : Sound mem p) (hp : p.frags = fs ++ gs) :
    (∀ f ∈ fs, f.Valid mem) ∧ ∀ f ∈ gs, f.Valid mem := by
  have hvalid := h.valid
  rw [hp] at hvalid
  exact List.forall_mem_append.mp hvalid

/-! ## Another impl -/

theorem allocate_returns (nr : Nat) : Returns (fun p => p.frags = [] ∧ p.len = 0 ∧
    p.headroom = internalDataSize ∧ p.data.length = internalDataSize) (Impl.allocate nr) := by
  unfold Impl.allocate
  split
  · exact .ok ⟨rfl, rfl, rfl, List.length_replicate⟩
  · exact Or.inr rfl

/-- `q` is the packet `p` in an impl of its own. -/
structure Copied (mem : Mem) (p q : Impl) : Prop where
  sound : Sound mem q
  frags : q.frags = p.frags
  len : q.len = p.len
  bytes : q.bytes mem = p.bytes mem

theorem Copied.refl (h : Sound mem p) : Copied mem p p := ⟨h, rfl, rfl, rfl⟩

theorem Copied.headroom (h : Copied mem p q) (hp : Sound mem p) : q.headroom = p.headroom := by
  rw [h.sound.headroom, h.frags, hp.headroom]

theorem length_overwrite_data {off : Nat} (hd : data.length = internalDataSize)
    (hle : off + bs.length ≤ internalDataSize) :
    (Fragments.overwrite data off bs).length = internalDataSize :=
  (Fragments.length_overwrite (by rw [hd]; exact hle)).trans hd

/-- What was written at a place is read there. -/
theorem bytes_overwrite {off size : Nat} (hb : bs.length = size) (hd : off + size ≤ data.length) :
    (Fragment.mk .data off size).bytes mem (Fragments.overwrite data off bs) = bs := by
  simp only [Fragment.bytes]
  rw [Fragments.drop_overwrite (by omega), List.take_left' hb]

/-- A fragment that is a buffer. -/
theorem bytes_buffer {i size : Nat} (h : mem[i]? = some bs) (hb : bs.length = size) :
    (Fragment.mk (.buf i) 0 size).bytes mem data = bs := by
  simp only [Fragment.bytes, List.getD_eq_getElem?_getD, h, Option.getD_some, List.drop_zero]
  exact List.take_of_length_le (by rw [hb])

theorem Sound.copy (h : Sound mem p) (nr : Nat) : Returns (Copied mem p) (p.copy nr) := by
  refine (allocate_returns nr).bind fun n ⟨_, _, _, hd⟩ => ?_
  by_cases hu : p.usingInternalData = true
  · obtain ⟨off, size, fs, hp, hoff, hv, hrest⟩ := h.using_data hu
    have hfs : ∀ f ∈ fs, f.Outside := fun f hf => (hrest f hf).1
    have hle : off + size ≤ internalDataSize := hv
    have hlen : ((Fragment.mk .data off size).bytes [] p.data).length = size :=
      hv.length_bytes h.data
    have hw : off + ((Fragment.mk .data off size).bytes [] p.data).length ≤ internalDataSize := by
      rw [hlen]
      exact hle
    simp only [Impl.copyInternalFragmentTo, hp, hu, if_true, Impl.writeData, hoff, if_pos hw]
    have hd' := length_overwrite_data hd hw
    refine .ok ⟨⟨hd', ?_, hfs, rfl⟩, hp.symm, rfl, ?_⟩
    · rw [← hp]
      exact h.valid
    · unfold Impl.bytes
      rw [hp]
      simp only [List.map_cons, List.flatten_cons]
      rw [bytes_overwrite hlen (by omega), map_bytes_congr hfs h.data hd']
      rfl
  · obtain ⟨hh, hout⟩ := h.not_using hu
    have hcopy : p.copyInternalFragmentTo { n with
        len := p.len, frags := p.frags, headroom := p.headroom } =
          .ok { n with len := p.len, frags := p.frags, headroom := p.headroom } := by
      unfold Impl.copyInternalFragmentTo
      split
      · rw [if_neg hu]
      · rfl
    rw [hcopy]
    refine .ok ⟨⟨hd, h.valid, h.outside, h.headroom⟩, rfl, rfl, ?_⟩
    unfold Impl.bytes
    rw [map_bytes_congr hout h.data hd]

theorem Sound.allocateIfNeeded (h : Sound mem p) (extra : Nat) :
    Returns (Copied mem p) (p.allocateIfNeeded extra) := by
  unfold Impl.allocateIfNeeded
  split
  · exact .ok (.refl h)
  · exact h.copy _

/-- `q` is the packet `p`, without `_data`. -/
structure Unused (mem : Mem) (p : Impl) (r : Impl × Mem) : Prop where
  grows : mem <+: r.2
  sound : Sound r.2 r.1
  outside : ∀ f ∈ r.1.frags, f.Outside
  len : r.1.len = p.len
  sizes : r.1.frags.map Fragment.size = p.frags.map Fragment.size
  allocatedFrags : r.1.allocatedFrags = p.allocatedFrags
  bytes : r.1.bytes r.2 = p.bytes mem

theorem Sound.unuse (h : Sound mem p) : Unused mem p (p.unuseInternalData mem) := by
  by_cases hu : p.usingInternalData = true
  · obtain ⟨off, size, fs, hp, -, hv, hrest⟩ := h.using_data hu
    have hgrow : mem <+: mem ++ [(Fragment.mk .data off size).bytes mem p.data] :=
      List.prefix_append _ _
    have hlen := hv.length_bytes h.data
    have hfs : ∀ f ∈ fs, f.Outside := fun f hf => (hrest f hf).1
    have hvs : ∀ f ∈ fs, f.Valid mem := fun f hf => (hrest f hf).2
    have hout : ∀ f ∈ Fragment.mk (.buf mem.length) 0 size :: fs, f.Outside := by
      intro f hf
      rcases List.mem_cons.mp hf with rfl | hf
      · nofun
      · exact hfs f hf
    simp only [Impl.unuseInternalData, hp, hu, if_true]
    refine ⟨hgrow, ⟨h.data, ?_, fun f hf => hfs f hf, rfl⟩, hout, rfl, ?_, rfl, ?_⟩
    · intro f hf
      rcases List.mem_cons.mp hf with rfl | hf
      · exact ⟨_, List.getElem?_concat_length, by simp only [hlen]; omega⟩
      · exact (hvs f hf).mono hgrow
    · rw [hp]
      rfl
    · unfold Impl.bytes
      rw [hp]
      simp only [List.map_cons, List.flatten_cons]
      congr 1
      · exact bytes_buffer List.getElem?_concat_length hlen
      · exact congrArg List.flatten (List.map_congr_left fun f hf =>
          (hvs f hf).bytes_mono hgrow p.data)
  · have hsame : p.unuseInternalData mem = (p, mem) := by
      unfold Impl.unuseInternalData
      split
      · rw [if_neg hu]
      · rfl
    rw [hsame]
    exact ⟨List.prefix_refl _, h, (h.not_using hu).2, rfl, rfl, rfl, rfl⟩

/-! ## Headers -/

/-- `q` is the packet `p` with `size` bytes more in front, at `off` in `_data`; `old` bytes of `p`
are behind them. -/
structure Roomed (mem : Mem) (p q : Impl) (size off old : Nat) (fs : List Fragment) : Prop where
  frags : q.frags = ⟨.data, off, old + size⟩ :: fs
  start : off + size = front p.frags
  headroom : q.headroom = off
  len : q.len = p.len + UInt32.ofNat size
  data : q.data.length = internalDataSize
  fits : off + size + old ≤ internalDataSize
  rest : ∀ f ∈ fs, f.Outside ∧ f.Valid mem
  bytes : p.bytes mem =
    (Fragment.mk .data (off + size) old).bytes mem q.data ++
      (fs.map (Fragment.bytes mem q.data)).flatten
  kept : p.usingInternalData = true → q.data = p.data

theorem Sound.allocateHeadroom {size : Nat} (h : Sound mem p) (hs : size ≤ p.headroom) :
    Returns (fun r => ∃ q off old fs, r = some q ∧ Roomed mem p q size off old fs)
      (p.allocateHeadroom size) := by
  unfold Impl.allocateHeadroom
  rw [if_pos hs]
  by_cases hu : p.usingInternalData = true
  · obtain ⟨off, old, fs, hp, hoff, hv, hrest⟩ := h.using_data hu
    have hv : off + old ≤ internalDataSize := hv
    have hle : size ≤ off := by omega
    have huse : Impl.useInternalData { p with len := p.len + UInt32.ofNat size } =
        .ok { p with len := p.len + UInt32.ofNat size } := if_pos hu
    rw [huse, ok_bind]
    simp only [Impl.takeHeadroom, hp, if_pos hle, ok_bind]
    refine .ok ⟨_, off - size, old, fs, rfl, rfl, ?_, ?_, rfl, h.data, by omega, hrest, ?_,
      fun _ => rfl⟩
    · rw [hp]
      change off - size + size = off
      omega
    · exact congrArg (· - size) hoff
    · rw [Nat.sub_add_cancel hle]
      unfold Impl.bytes
      rw [hp]
      rfl
  · obtain ⟨hh, hout⟩ := h.not_using hu
    have huse : Impl.useInternalData { p with len := p.len + UInt32.ofNat size } =
        (Impl.allocateIfNeeded 1 { p with len := p.len + UInt32.ofNat size } >>= fun n =>
          .ok { n with frags := ⟨.data, internalDataSize, 0⟩ :: n.frags }) := if_neg hu
    rw [huse, bind_assoc]
    have hsound : Sound mem { p with len := p.len + UInt32.ofNat size } :=
      ⟨h.data, h.valid, h.outside, h.headroom⟩
    refine (hsound.allocateIfNeeded 1).bind fun n hn => ?_
    have hnh : n.headroom = internalDataSize := (hn.headroom hsound).trans hh
    have hle : size ≤ internalDataSize := hh ▸ hs
    simp only [ok_bind, Impl.takeHeadroom, if_pos hle]
    have hfs : n.frags = p.frags := hn.frags
    refine .ok ⟨_, internalDataSize - size, 0, n.frags, rfl, rfl, ?_, ?_, hn.len, hn.sound.data,
      by omega, ?_, ?_, fun hc => absurd hc hu⟩
    · rw [front_of_outside hout]
      omega
    · exact congrArg (· - size) hnh
    · rw [hfs]
      exact fun f hf => ⟨hout f hf, h.valid f hf⟩
    · have hb : n.bytes mem = p.bytes mem := hn.bytes
      rw [← hb]
      simp only [Fragment.bytes, List.take_zero, List.nil_append]
      rfl

theorem allocateHeadroom_none {size : Nat} (hs : ¬ size ≤ p.headroom) :
    p.allocateHeadroom size = .ok none := if_neg hs

/-- The packet `r` has these bytes, and `len` for its `_len`. -/
structure Becomes (mem : Mem) (len : UInt32) (bs : Bytes) (r : Impl × Mem) : Prop where
  grows : mem <+: r.2
  sound : Sound r.2 r.1
  len : r.1.len = len
  bytes : r.1.bytes r.2 = bs

/-- `bs` was put in front of the packet `p`. -/
abbrev Prepended (mem : Mem) (p : Impl) (bs : Bytes) : Impl × Mem → Prop :=
  Becomes mem (p.len + UInt32.ofNat bs.length) (bs ++ p.bytes mem)

/-- `bs` was written into `_data` directly in front of the first byte that `p` has there, or up
to its end, and nowhere else. -/
structure Inside (mem : Mem) (p : Impl) (bs : Bytes) (r : Impl × Mem) : Prop where
  mem : r.2 = mem
  frags : ∃ off size fs, r.1.frags = ⟨.data, off, size⟩ :: fs ∧ r.1.headroom = off ∧
    off + bs.length = front p.frags ∧
    (p.usingInternalData = true → r.1.data = Fragments.overwrite p.data off bs)

theorem Roomed.writeFront {off old : Nat} (h : Roomed mem p q bs.length off old fs) :
    ∃ q', q.writeFront bs = .ok q' ∧ Prepended mem p bs (q', mem) ∧ Inside mem p bs (q', mem) := by
  have hle : off + bs.length ≤ internalDataSize := Nat.le_trans (Nat.le_add_right _ _) h.fits
  have hd := length_overwrite_data h.data hle
  refine ⟨{ q with data := Fragments.overwrite q.data off bs }, ?_,
    ⟨List.prefix_refl _, ?_, h.len, ?_⟩, rfl, off, old + bs.length, fs, h.frags, h.headroom,
    h.start, fun hu => by rw [h.kept hu]⟩
  · simp only [Impl.writeFront, h.frags, Impl.writeData, if_pos hle]
  · refine ⟨hd, ?_, ?_, ?_⟩
    · intro f hf
      rw [h.frags] at hf
      rcases List.mem_cons.mp hf with rfl | hf
      · have := h.fits
        change off + (old + bs.length) ≤ internalDataSize
        omega
      · exact (h.rest f hf).2
    · rw [h.frags]
      exact fun f hf => (h.rest f hf).1
    · rw [h.frags]
      exact h.headroom
  · rw [h.bytes]
    unfold Impl.bytes
    rw [h.frags]
    simp only [List.map_cons, List.flatten_cons]
    rw [map_bytes_congr (fun f hf => (h.rest f hf).1) h.data hd, ← List.append_assoc]
    congr 1
    simp only [Fragment.bytes]
    rw [Fragments.drop_overwrite (by rw [h.data]; omega), Nat.add_comm old,
      List.take_length_add_append]

/-- A header that fits the headroom. -/
theorem Sound.writeHeader (h : Sound mem p) (hs : bs.length ≤ p.headroom) :
    Returns (fun r => ∃ q q', r = some q ∧ q.writeFront bs = .ok q' ∧
      Prepended mem p bs (q', mem) ∧ Inside mem p bs (q', mem)) (p.allocateHeadroom bs.length) := by
  refine (h.allocateHeadroom hs).mono ?_
  rintro r ⟨q, off, old, fs, rfl, hq⟩
  obtain ⟨q', hw, hpre, hin⟩ := hq.writeFront
  exact ⟨q, q', rfl, hw, hpre, hin⟩

theorem Sound.pushFront (h : Sound mem p) (hu : ∀ f ∈ p.frags, f.Outside) (bs : Bytes) :
    Returns (Prepended mem p bs) (p.pushFront mem bs) := by
  refine (h.allocateIfNeeded 1).bind fun n hn => .ok ?_
  have hgrow : mem <+: mem ++ [bs] := List.prefix_append _ _
  refine ⟨hgrow, ⟨hn.sound.data, ?_, ?_, ?_⟩, congrArg (· + _) hn.len, ?_⟩
  · intro f hf
    rcases List.mem_cons.mp hf with rfl | hf
    · exact ⟨bs, List.getElem?_concat_length, by simp⟩
    · exact (hn.sound.valid f hf).mono hgrow
  · intro f hf
    rw [List.tail_cons, hn.frags] at hf
    exact hu f hf
  · change n.headroom = internalDataSize
    rw [hn.headroom h, h.headroom, front_of_outside hu]
  · have hb : n.bytes (mem ++ [bs]) = p.bytes mem := (hn.sound.bytes_mono hgrow).trans hn.bytes
    unfold Impl.bytes at hb ⊢
    simp only [List.map_cons, List.flatten_cons]
    rw [hb, bytes_buffer List.getElem?_concat_length rfl]

/-- What was put in front of a packet without `_data` was put in front of the packet. -/
theorem Prepended.of_unused {u : Impl × Mem} {r : Impl × Mem} (hu : Unused mem p u)
    (h : Prepended u.2 u.1 bs r) : Prepended mem p bs r :=
  ⟨hu.grows.trans h.grows, h.sound, by rw [h.len, hu.len], by rw [h.bytes, hu.bytes]⟩

theorem Sound.prependFragment (h : Sound mem p) (bs : Bytes) :
    Returns (fun r => Prepended mem p bs r ∧ (bs.length ≤ p.headroom → Inside mem p bs r))
      (p.prependFragment mem bs) := by
  unfold Impl.prependFragment
  by_cases hs : bs.length ≤ p.headroom
  · refine (h.writeHeader hs).bind ?_
    rintro r ⟨q, q', rfl, hw, hpre, hin⟩
    simp only [hw, ok_bind]
    exact .ok ⟨hpre, fun _ => hin⟩
  · rw [allocateHeadroom_none hs, ok_bind]
    have hu := h.unuse
    exact (hu.sound.pushFront hu.outside bs).mono fun r hr =>
      ⟨hr.of_unused hu, fun hle => absurd hle hs⟩

theorem Sound.prependHeader (h : Sound mem p) (bs : Bytes) :
    Returns (fun r => Prepended mem p bs r ∧ (bs.length ≤ p.headroom → Inside mem p bs r))
      (p.prependHeader mem bs) := by
  unfold Impl.prependHeader
  by_cases hs : bs.length ≤ p.headroom
  · refine (h.writeHeader hs).bind ?_
    rintro r ⟨q, q', rfl, hw, hpre, hin⟩
    simp only [hw, ok_bind]
    exact .ok ⟨hpre, fun _ => hin⟩
  · rw [allocateHeadroom_none hs, ok_bind]
    have hu := h.unuse
    have hno : ∀ r, Prepended mem p bs r →
        Prepended mem p bs r ∧ (bs.length ≤ p.headroom → Inside mem p bs r) :=
      fun r hr => ⟨hr, fun hle => absurd hle hs⟩
    simp only
    by_cases hs' : bs.length ≤ (p.unuseInternalData mem).1.headroom
    · refine (hu.sound.writeHeader hs').bind ?_
      rintro r ⟨q, q', rfl, hw, hpre, -⟩
      simp only [hw, ok_bind]
      exact .ok (hno _ (hpre.of_unused hu))
    · rw [allocateHeadroom_none hs', ok_bind]
      exact (hu.sound.pushFront hu.outside bs).mono fun r hr => hno r (hr.of_unused hu)

/-! ## Behind -/

theorem front_append (fs gs : List Fragment) (hg : ∀ f ∈ gs, f.Outside) :
    front (fs ++ gs) = front fs := by
  cases fs with
  | nil => exact front_of_outside hg
  | cons f fs =>
    obtain ⟨loc, off, size⟩ := f
    cases loc with
    | data => rfl
    | buf i => rfl

theorem Sound.appendFragment (h : Sound mem p) (bs : Bytes) :
    Returns (Becomes mem (p.len + UInt32.ofNat bs.length) (p.bytes mem ++ bs))
      (p.appendFragment mem bs) := by
  refine (h.allocateIfNeeded 1).bind fun n hn => .ok ?_
  have hgrow : mem <+: mem ++ [bs] := List.prefix_append _ _
  have hlast : (Fragment.mk (.buf mem.length) 0 bs.length).Valid (mem ++ [bs]) :=
    ⟨bs, List.getElem?_concat_length, by simp⟩
  refine ⟨hgrow, ⟨hn.sound.data, ?_, ?_, ?_⟩, congrArg (· + _) hn.len, ?_⟩
  · intro f hf
    rcases List.mem_append.mp hf with hf | hf
    · exact (hn.sound.valid f hf).mono hgrow
    · rw [List.mem_singleton.mp hf]
      exact hlast
  · intro f hf
    cases hfs : n.frags with
    | nil =>
      simp only [hfs, List.nil_append, List.tail_cons] at hf
      cases hf
    | cons g gs =>
      simp only [hfs, List.cons_append, List.tail_cons] at hf
      rcases List.mem_append.mp hf with hf | hf
      · exact hn.sound.outside f (by rw [hfs]; exact hf)
      · rw [List.mem_singleton.mp hf]
        nofun
  · refine hn.sound.headroom.trans (front_append _ _ ?_).symm
    intro f hf
    rw [List.mem_singleton.mp hf]
    nofun
  · have hb : n.bytes (mem ++ [bs]) = p.bytes mem := (hn.sound.bytes_mono hgrow).trans hn.bytes
    unfold Impl.bytes at hb ⊢
    simp only [List.map_append, List.flatten_append, List.map_cons, List.map_nil,
      List.flatten_cons, List.flatten_nil, List.append_nil]
    rw [hb, bytes_buffer List.getElem?_concat_length rfl]

theorem Sound.append (h : Sound mem p) (hq : Sound mem q) :
    Returns (fun r => (p.len = 0 → r = (q, mem)) ∧
        (p.len ≠ 0 → Becomes mem (p.len + q.len) (p.bytes mem ++ q.bytes mem) r))
      (p.append mem q) := by
  unfold Impl.append
  by_cases h0 : p.len = 0
  · rw [if_pos h0]
    exact .ok ⟨fun _ => rfl, fun hne => absurd h0 hne⟩
  · rw [if_neg h0]
    have hu := hq.unuse
    generalize q.unuseInternalData mem = u at hu ⊢
    refine (h.allocateIfNeeded q.frags.length).bind fun n hn =>
      .ok ⟨fun hz => absurd hz h0, fun _ => ?_⟩
    refine ⟨hu.grows, ⟨hn.sound.data, ?_, ?_, ?_⟩, ?_, ?_⟩
    · intro f hf
      rcases List.mem_append.mp hf with hf | hf
      · exact (hn.sound.valid f hf).mono hu.grows
      · exact hu.sound.valid f hf
    · intro f hf
      cases hfs : n.frags with
      | nil =>
        simp only [hfs, List.nil_append] at hf
        exact hu.outside f (List.mem_of_mem_tail hf)
      | cons g gs =>
        simp only [hfs, List.cons_append, List.tail_cons] at hf
        rcases List.mem_append.mp hf with hf | hf
        · exact hn.sound.outside f (by rw [hfs]; exact hf)
        · exact hu.outside f hf
    · exact hn.sound.headroom.trans (front_append _ _ hu.outside).symm
    · exact congrArg₂ (· + ·) hn.len hu.len
    · have hb : n.bytes u.2 = p.bytes mem :=
        (hn.sound.bytes_mono hu.grows).trans hn.bytes
      have hqb := hu.bytes
      unfold Impl.bytes at hb hqb ⊢
      simp only [List.map_append, List.flatten_append]
      rw [hb, map_bytes_congr hu.outside hu.sound.data hn.sound.data, hqb]

/-! ## Trimming -/

/-- Whole fragments are skipped until one is left that is longer than the rest. -/
theorem dropWhole_spec (n : Nat) (fs : List Fragment) :
    ∃ pre, fs = pre ++ (Impl.dropWhole n fs).2 ∧ n = (Impl.dropWhole n fs).1 + sizes pre ∧
      ∀ f gs, (Impl.dropWhole n fs).2 = f :: gs →
        (Impl.dropWhole n fs).1 = 0 ∨ (Impl.dropWhole n fs).1 < f.size := by
  induction fs generalizing n with
  | nil => exact ⟨[], rfl, rfl, nofun⟩
  | cons f fs ih =>
    rw [Impl.dropWhole]
    split
    · rename_i hle
      obtain ⟨pre, hfs, hn, hstop⟩ := ih (n - f.size)
      refine ⟨f :: pre, congrArg (f :: ·) hfs, ?_, hstop⟩
      rw [sizes_cons]
      omega
    · rename_i hle
      refine ⟨[], rfl, rfl, fun g gs hg => ?_⟩
      obtain ⟨rfl, -⟩ := List.cons.inj hg
      simp only
      omega

/-- The first fragments hold enough for all of it. -/
theorem dropWhole_append {n : Nat} (h : n ≤ sizes fs) (gs : List Fragment) :
    Impl.dropWhole n (fs ++ gs) =
      ((Impl.dropWhole n fs).1, (Impl.dropWhole n fs).2 ++ gs) := by
  induction fs generalizing n with
  | nil =>
    obtain rfl : n = 0 := Nat.le_zero.mp h
    cases gs with
    | nil => rfl
    | cons g gs => rfl
  | cons f fs ih =>
    rw [List.cons_append, Impl.dropWhole, Impl.dropWhole]
    split
    · rename_i hle
      rw [sizes_cons] at h
      exact ih (by omega)
    · rfl

theorem dropWhole_nil {n : Nat} (h : n ≤ sizes fs) (hnil : (Impl.dropWhole n fs).2 = []) :
    (Impl.dropWhole n fs).1 = 0 := by
  obtain ⟨pre, hfs, hn, -⟩ := dropWhole_spec n fs
  rw [hnil, List.append_nil] at hfs
  subst hfs
  omega

/-- The first fragment is cut in front. -/
theorem Fragment.bytes_cutFront (f : Fragment) (left : Nat) :
    ({ f with off := f.off + left, size := f.size - left } : Fragment).bytes mem data =
      (f.bytes mem data).drop left := by
  obtain ⟨loc, off, size⟩ := f
  cases loc with
  | data =>
    simp only [Fragment.bytes]
    rw [List.drop_take, List.drop_drop]
  | buf i =>
    simp only [Fragment.bytes]
    rw [List.drop_take, List.drop_drop]

theorem Fragment.bytes_cutBack (f : Fragment) (left : Nat) :
    ({ f with size := f.size - left } : Fragment).bytes mem data =
      (f.bytes mem data).take (f.size - left) := by
  obtain ⟨loc, off, size⟩ := f
  cases loc with
  | data =>
    simp only [Fragment.bytes]
    rw [List.take_take, Nat.min_eq_left (Nat.sub_le _ _)]
  | buf i =>
    simp only [Fragment.bytes]
    rw [List.take_take, Nat.min_eq_left (Nat.sub_le _ _)]

theorem Fragment.Valid.cutFront {left : Nat} (h : f.Valid mem) (hl : left ≤ f.size) :
    ({ f with off := f.off + left, size := f.size - left } : Fragment).Valid mem := by
  obtain ⟨loc, off, size⟩ := f
  simp only at hl
  cases loc with
  | data =>
    have hv : off + size ≤ internalDataSize := h
    change off + left + (size - left) ≤ internalDataSize
    omega
  | buf i =>
    obtain ⟨b, hb, hle⟩ := h
    refine ⟨b, hb, ?_⟩
    simp only at hle ⊢
    omega

theorem Fragment.Valid.shorten {size : Nat} (h : f.Valid mem) (hl : size ≤ f.size) :
    ({ f with size := size } : Fragment).Valid mem := by
  obtain ⟨loc, off, old⟩ := f
  simp only at hl
  cases loc with
  | data =>
    have hv : off + old ≤ internalDataSize := h
    change off + size ≤ internalDataSize
    omega
  | buf i =>
    obtain ⟨b, hb, hle⟩ := h
    refine ⟨b, hb, ?_⟩
    simp only at hle ⊢
    omega

/-- A fragment at the end of `_data` has no bytes. -/
theorem Fragment.Valid.size_of_outside (h : f.Valid mem) (ho : f.Outside) (hl : f.loc = .data) :
    f.size = 0 := by
  have hoff := ho hl
  obtain ⟨loc, off, size⟩ := f
  obtain rfl : loc = .data := hl
  have hv : off + size ≤ internalDataSize := h
  simp only at hoff ⊢
  omega

/-- The packet with its first fragments skipped. -/
theorem Sound.skip {frags pre : List Fragment} (h : Sound mem p) (hf : p.frags = pre ++ frags) :
    ∃ hr, (if Impl.usingInternalData { p with frags := frags } then
        { p with frags := frags } else { p with frags := frags, headroom := internalDataSize }) =
      { p with frags := frags, headroom := hr } ∧
        Sound mem { p with frags := frags, headroom := hr } := by
  have hv : ∀ f ∈ frags, f.Valid mem := (h.valid_append hf).2
  by_cases hu : Impl.usingInternalData { p with frags := frags } = true
  · rw [if_pos hu]
    -- only the first fragment of a packet is in `_data`
    have hpre : pre = [] := by
      cases pre with
      | nil => rfl
      | cons g pre =>
        have hout : ∀ f ∈ frags, f.Outside := fun f hfm =>
          h.outside f (by rw [hf]; exact List.mem_append_right _ hfm)
        rw [usingInternalData_iff, front_of_outside hout] at hu
        exact absurd hu (Nat.lt_irrefl _)
    subst hpre
    refine ⟨p.headroom, rfl, h.data, hv, ?_, ?_⟩
    · have := h.outside
      rwa [hf] at this
    · have := h.headroom
      rwa [hf] at this
  · rw [if_neg hu]
    refine ⟨internalDataSize, rfl, h.data, hv, ?_, ?_⟩
    · intro f hfm
      refine h.outside f ?_
      rw [hf]
      cases pre with
      | nil => exact hfm
      | cons g pre => exact List.mem_append_right _ (List.mem_of_mem_tail hfm)
    · rw [usingInternalData_iff] at hu
      have hle : front frags ≤ internalDataSize := by
        match hfr : frags with
        | [] => exact Nat.le_refl _
        | ⟨.buf i, off, size⟩ :: fs => exact Nat.le_refl _
        | ⟨.data, off, size⟩ :: fs =>
          have : off + size ≤ internalDataSize := hv _ List.mem_cons_self
          change off ≤ internalDataSize
          omega
      change internalDataSize = front frags
      change ¬ front frags < internalDataSize at hu
      omega

/-- The bytes of fragments that are there. -/
def bytesOf (mem : Mem) (data : Bytes) (fs : List Fragment) : Bytes :=
  (fs.map (Fragment.bytes mem data)).flatten

@[simp] theorem bytesOf_nil : bytesOf mem data [] = [] := rfl

@[simp] theorem bytesOf_cons (f : Fragment) (fs : List Fragment) :
    bytesOf mem data (f :: fs) = f.bytes mem data ++ bytesOf mem data fs := rfl

@[simp] theorem bytesOf_append (fs gs : List Fragment) :
    bytesOf mem data (fs ++ gs) = bytesOf mem data fs ++ bytesOf mem data gs := by
  rw [bytesOf, List.map_append, List.flatten_append]
  rfl

theorem length_bytesOf (h : ∀ f ∈ fs, f.Valid mem) (hd : data.length = internalDataSize) :
    (bytesOf mem data fs).length = sizes fs := by
  induction fs with
  | nil => rfl
  | cons f fs ih =>
    rw [bytesOf_cons, sizes_cons, List.length_append,
      (h f List.mem_cons_self).length_bytes hd, ih fun g hg => h g (List.mem_cons_of_mem _ hg)]

theorem Sound.length_bytes (h : Sound mem p) : (p.bytes mem).length = sizes p.frags :=
  length_bytesOf h.valid h.data

theorem Sound.trimFront {n : Nat} (h : Sound mem p) (hq : p.trimFront n = .ok q) :
    Sound mem q ∧ q.len = p.len - UInt32.ofNat n ∧
      (n ≤ sizes p.frags → q.bytes mem = (p.bytes mem).drop n) := by
  unfold Impl.trimFront at hq
  split at hq
  swap
  · cases hq
  obtain ⟨pre, hf, hn, hstop⟩ := dropWhole_spec n p.frags
  generalize Impl.dropWhole n p.frags = r at hq hf hn hstop
  obtain ⟨left, frags⟩ := r
  simp only at hq hf hn hstop
  have hlen : Sound mem { p with len := p.len - UInt32.ofNat n } :=
    ⟨h.data, h.valid, h.outside, h.headroom⟩
  obtain ⟨hr, heq, hs⟩ := hlen.skip hf
  simp only at heq
  rw [heq] at hq
  have hlpre := length_bytesOf (h.valid_append hf).1 h.data
  have hbytes : p.bytes mem = bytesOf mem p.data pre ++ bytesOf mem p.data frags := by
    rw [← bytesOf_append, ← hf]
    rfl
  have hdrop : (p.bytes mem).drop n = (bytesOf mem p.data frags).drop left := by
    rw [hbytes, hn, Nat.add_comm, ← hlpre, List.drop_length_add_append]
  cases frags with
  | nil =>
    obtain rfl := Except.ok.inj hq
    refine ⟨hs, rfl, fun _ => ?_⟩
    rw [hdrop]
    exact List.drop_nil.symm
  | cons f fs =>
    simp only at hq
    split at hq
    · rename_i h0
      obtain rfl := Except.ok.inj hq
      refine ⟨hs, rfl, fun _ => ?_⟩
      rw [hdrop, h0]
      rfl
    · rename_i h0
      have hlt : left < f.size := (hstop f fs rfl).resolve_left h0
      obtain rfl := Except.ok.inj hq
      refine ⟨⟨hs.data, ?_, hs.outside, ?_⟩, rfl, fun _ => ?_⟩
      · intro g hg
        rcases List.mem_cons.mp hg with rfl | hg
        · exact (hs.valid f List.mem_cons_self).cutFront (Nat.le_of_lt hlt)
        · exact hs.valid g (List.mem_cons_of_mem _ hg)
      · have hh : hr = front (f :: fs) := hs.headroom
        simp only [usingInternalData_eq, decide_eq_true_eq]
        rw [hh]
        obtain ⟨loc, off, size⟩ := f
        cases loc with
        | buf i => exact if_neg (Nat.lt_irrefl _)
        | data =>
          have hv : off + size ≤ internalDataSize := hs.valid _ List.mem_cons_self
          have hl : left < size := hlt
          exact if_pos (show off < internalDataSize by omega)
      · rw [hdrop]
        have hfl : (f.bytes mem p.data).length = f.size :=
          (hs.valid f List.mem_cons_self).length_bytes h.data
        rw [bytesOf_cons, List.drop_append_of_le_length (by omega), ← f.bytes_cutFront]
        rfl

/-- `trim_back` takes nothing from a first fragment that is in `_data`. -/
def KeepsFirst (p : Impl) (howMuch : Nat) : Prop :=
  p.usingInternalData = true → howMuch ≤ sizes p.frags.tail

instance (p : Impl) (n : Nat) : Decidable (KeepsFirst p n) := inferInstanceAs (Decidable (_ → _))

/-- What is left in front, when the last fragment that is left is cut by `left`. -/
theorem bytesOf_cutBack {back : List Fragment} {left : Nat}
    (hd : data.length = internalDataSize) (hv : ∀ g ∈ fs, g.Valid mem)
    (hb : back = f :: fs) (hl : left ≤ f.size) :
    bytesOf mem data (({ f with size := f.size - left } : Fragment) :: fs).reverse =
      (bytesOf mem data back.reverse).take (sizes back - left) := by
  have hfs : (bytesOf mem data fs.reverse).length = sizes fs.reverse :=
    length_bytesOf (fun g hg => hv g (List.mem_reverse.mp hg)) hd
  rw [sizes_reverse] at hfs
  have hlen : sizes back - left = (bytesOf mem data fs.reverse).length + (f.size - left) := by
    rw [hfs, hb, sizes_cons]
    omega
  rw [hlen, hb]
  simp only [List.reverse_cons, bytesOf_append, bytesOf_cons, bytesOf_nil, List.append_nil]
  rw [List.take_length_add_append, ← f.bytes_cutBack]

/-- The fragments that are left, in a packet whose first fragment is still where it was. -/
theorem Sound.front_kept {frags : List Fragment} (h : Sound mem p)
    (hv : ∀ f ∈ frags, f.Valid mem) (ho : ∀ f ∈ frags.tail, f.Outside)
    (hf : front frags = front p.frags) (len : UInt32) :
    Sound mem { p with len := len, frags := frags } := ⟨h.data, hv, ho, h.headroom.trans hf.symm⟩

/-- A cut at the end moves no fragment. -/
theorem front_cutBack (f : Fragment) (fs : List Fragment) (size : Nat) :
    front (({ f with size := size } : Fragment) :: fs).reverse = front (f :: fs).reverse := by
  rw [List.reverse_cons, List.reverse_cons]
  cases fs.reverse with
  | nil =>
    obtain ⟨loc, off, old⟩ := f
    cases loc with
    | data => rfl
    | buf i => rfl
  | cons g gs =>
    obtain ⟨loc, off, old⟩ := g
    cases loc with
    | data => rfl
    | buf i => rfl

theorem Sound.trimBack {n : Nat} (h : Sound mem p) (hk : KeepsFirst p n)
    (hq : p.trimBack n = .ok q) : Sound mem q ∧ q.len = p.len - UInt32.ofNat n ∧
      (n ≤ sizes p.frags → q.bytes mem = (p.bytes mem).take (sizes p.frags - n)) := by
  unfold Impl.trimBack at hq
  split at hq
  swap
  · cases hq
  obtain ⟨pre, hf, hn, hstop⟩ := dropWhole_spec n p.frags.reverse
  have hfirst : p.usingInternalData = true → ∀ f fs, p.frags = f :: fs →
      ∃ back, Impl.dropWhole n p.frags.reverse =
          ((Impl.dropWhole n p.frags.reverse).1, back ++ [f]) ∧
        ((Impl.dropWhole n p.frags.reverse).1 = 0 ∨ back ≠ []) := by
    intro hu f fs hp
    have hle : n ≤ sizes fs.reverse := by
      have := hk hu
      rwa [hp, List.tail_cons, ← sizes_reverse] at this
    rw [hp, List.reverse_cons, dropWhole_append hle]
    refine ⟨_, rfl, ?_⟩
    by_cases hnil : (Impl.dropWhole n fs.reverse).2 = []
    · exact Or.inl (dropWhole_nil hle hnil)
    · exact Or.inr hnil
  generalize Impl.dropWhole n p.frags.reverse = r at hq hf hn hstop hfirst
  obtain ⟨left, back⟩ := r
  simp only at hq hf hn hstop hfirst
  have hfrags : p.frags = back.reverse ++ pre.reverse := by
    rw [← List.reverse_append, ← hf, List.reverse_reverse]
  have hback : ∀ f ∈ back, f.Valid mem := fun f hm =>
    h.valid f (by rw [hfrags]; exact List.mem_append_left _ (List.mem_reverse.mpr hm))
  have hbytes : (p.bytes mem).take (sizes p.frags - n) =
      (bytesOf mem p.data back.reverse).take (sizes back - left) := by
    have hb : p.bytes mem = bytesOf mem p.data back.reverse ++ bytesOf mem p.data pre.reverse := by
      rw [← bytesOf_append, ← hfrags]
      rfl
    have hlb : (bytesOf mem p.data back.reverse).length = sizes back.reverse :=
      length_bytesOf (fun f hm => hback f (List.mem_reverse.mp hm)) h.data
    rw [sizes_reverse] at hlb
    have hs : sizes p.frags - n = sizes back - left := by
      rw [hfrags, sizes_append, sizes_reverse, sizes_reverse]
      omega
    rw [hb, hs, List.take_append_of_le_length (by omega)]
  have houtside : ∀ f ∈ back.reverse.tail, f.Outside := by
    intro f hm
    refine h.outside f ?_
    rw [hfrags]
    cases hb : back.reverse with
    | nil => rw [hb] at hm; cases hm
    | cons g gs =>
      rw [hb] at hm
      exact List.mem_append_left _ hm
  have hfront : front back.reverse = front p.frags := by
    by_cases hu : p.usingInternalData = true
    · obtain ⟨off, size, fs, hp⟩ := using_cases hu
      obtain ⟨keep, hkeep, -⟩ := hfirst hu _ _ hp
      obtain rfl : back = keep ++ [⟨.data, off, size⟩] := congrArg Prod.snd hkeep
      rw [hp, List.reverse_append]
      rfl
    · obtain ⟨-, hout⟩ := h.not_using hu
      rw [front_of_outside hout, front_of_outside]
      intro f hm
      refine hout f ?_
      rw [hfrags]
      exact List.mem_append_left _ hm
  rw [hbytes]
  cases back with
  | nil =>
    obtain rfl := Except.ok.inj hq
    refine ⟨h.front_kept (fun f hm => absurd hm List.not_mem_nil)
      (fun f hm => absurd hm List.not_mem_nil) hfront _, rfl, fun _ => ?_⟩
    exact List.take_nil.symm
  | cons f fs =>
    simp only at hq
    split at hq
    · rename_i h0
      obtain rfl := Except.ok.inj hq
      refine ⟨h.front_kept (fun g hg => hback g (List.mem_reverse.mp hg)) houtside hfront _, rfl,
        fun _ => ?_⟩
      rw [h0, Nat.sub_zero, List.take_of_length_le]
      · rfl
      · rw [length_bytesOf (fun g hg => hback g (List.mem_reverse.mp hg)) h.data, sizes_reverse]
    · rename_i h0
      have hlt : left < f.size := (hstop f fs rfl).resolve_left h0
      have hcut : Sound mem { p with
          len := p.len - UInt32.ofNat n
          frags := (({ f with size := f.size - left } : Fragment) :: fs).reverse } := by
        refine h.front_kept ?_ ?_ ((front_cutBack f fs _).trans hfront) _
        · intro g hg
          rcases List.mem_cons.mp (List.mem_reverse.mp hg) with rfl | hg
          · exact (hback f List.mem_cons_self).shorten (Nat.sub_le _ _)
          · exact hback g (List.mem_cons_of_mem _ hg)
        · intro g hg
          rw [List.reverse_cons] at hg houtside
          cases hr : fs.reverse with
          | nil =>
            rw [hr] at hg
            cases hg
          | cons a as =>
            rw [hr] at hg houtside
            rcases List.mem_append.mp hg with hg | hg
            · exact houtside g (List.mem_append_left _ hg)
            · rw [List.mem_singleton.mp hg]
              exact houtside f (List.mem_append_right _ List.mem_cons_self)
      -- the first fragment in `_data` is not the one that is cut
      have hnot : ¬ (fs.isEmpty && Impl.usingInternalData { p with
          len := p.len - UInt32.ofNat n
          frags := (({ f with size := f.size - left } : Fragment) :: fs).reverse }) = true := by
        intro hc
        rw [Bool.and_eq_true, List.isEmpty_iff, usingInternalData_iff] at hc
        obtain ⟨rfl, hlt'⟩ := hc
        have hu : p.usingInternalData = true := by
          rw [usingInternalData_iff, ← hfront, ← front_cutBack f [] (f.size - left)]
          exact hlt'
        obtain ⟨off, size, gs, hp⟩ := using_cases hu
        obtain ⟨keep, hkeep, hne⟩ := hfirst hu _ _ hp
        have hlen := congrArg (fun r => r.2.length) hkeep
        simp only [List.length_append, List.length_cons, List.length_nil] at hlen
        have hnil : keep = [] := List.eq_nil_of_length_eq_zero (by omega)
        exact hne.elim h0 fun hk' => hk' hnil
      rw [if_neg hnot] at hq
      obtain rfl := Except.ok.inj hq
      refine ⟨hcut, rfl, fun _ => ?_⟩
      exact bytesOf_cutBack h.data (fun g hg => hback g (List.mem_cons_of_mem _ hg)) rfl
        (Nat.le_of_lt hlt)

/-! ## The other operations -/

theorem Copied.becomes (h : Copied mem p q) : Becomes mem p.len (p.bytes mem) (q, mem) :=
  ⟨List.prefix_refl _, h.sound, h.len, h.bytes⟩

theorem Sound.reserve (h : Sound mem p) (nFrags : Nat) :
    Returns (fun q => Becomes mem p.len (p.bytes mem) (q, mem)) (p.reserve nFrags) := by
  unfold Impl.reserve
  split
  · exact (h.allocateIfNeeded _).mono fun q hq => hq.becomes
  · exact .ok (Copied.refl h).becomes

theorem gather_spec (mem : Mem) (data : Bytes) (n : Nat) (fs : List Fragment) :
    ∃ pre, fs = pre ++ (Impl.gather mem data n fs).2 ∧
      (Impl.gather mem data n fs).1 = bytesOf mem data pre := by
  induction fs generalizing n with
  | nil =>
    cases n with
    | zero => exact ⟨[], rfl, rfl⟩
    | succ n => exact ⟨[], rfl, rfl⟩
  | cons f fs ih =>
    cases n with
    | zero => exact ⟨[], rfl, rfl⟩
    | succ n =>
      obtain ⟨pre, hfs, hb⟩ := ih (n + 1 - f.size)
      refine ⟨f :: pre, congrArg (f :: ·) hfs, ?_⟩
      rw [Impl.gather, hb, bytesOf_cons]

theorem Sound.linearizeAt {i n : Nat} {r : Impl × Mem} (h : Sound mem p)
    (hr : p.linearizeAt mem i n = .ok r) : Becomes mem p.len (p.bytes mem) r := by
  have hu := h.unuse
  unfold Impl.linearizeAt at hr
  generalize p.unuseInternalData mem = u at hu hr
  obtain ⟨p', mem'⟩ := u
  simp only at hr
  obtain ⟨pre, hsplit, hb⟩ := gather_spec mem' p'.data n (p'.frags.drop i)
  generalize Impl.gather mem' p'.data n (p'.frags.drop i) = g at hr hsplit hb
  obtain ⟨bs, rest⟩ := g
  simp only at hr hsplit hb
  split at hr
  swap
  · cases hr
  obtain rfl := Except.ok.inj hr
  have hfrags : p'.frags = p'.frags.take i ++ (pre ++ rest) := by
    rw [← hsplit, List.take_append_drop]
  have hgrow : mem' <+: mem' ++ [bs] := List.prefix_append _ _
  have hmem : ∀ f ∈ p'.frags.take i ++ Fragment.mk (.buf mem'.length) 0 bs.length :: rest,
      f ∈ p'.frags ∨ f = Fragment.mk (.buf mem'.length) 0 bs.length := by
    intro f hf
    rcases List.mem_append.mp hf with hf | hf
    · exact Or.inl (List.mem_of_mem_take hf)
    · rcases List.mem_cons.mp hf with rfl | hf
      · exact Or.inr rfl
      · left
        rw [hfrags]
        exact List.mem_append_right _ (List.mem_append_right _ hf)
  have hout : ∀ f ∈ p'.frags.take i ++ Fragment.mk (.buf mem'.length) 0 bs.length :: rest,
      f.Outside := by
    intro f hf
    rcases hmem f hf with hf | rfl
    · exact hu.outside f hf
    · nofun
  refine ⟨hu.grows.trans hgrow,
    ⟨hu.sound.data, ?_, fun f hf => hout f (List.mem_of_mem_tail hf), ?_⟩, hu.len, ?_⟩
  · intro f hf
    rcases hmem f hf with hf | rfl
    · exact (hu.sound.valid f hf).mono hgrow
    · exact ⟨bs, List.getElem?_concat_length, by simp⟩
  · change p'.headroom = _
    rw [hu.sound.headroom, front_of_outside hu.outside, front_of_outside hout]
  · have hold : bytesOf (mem' ++ [bs]) p'.data p'.frags = p.bytes mem :=
      (hu.sound.bytes_mono hgrow).trans hu.bytes
    have hpre : bytesOf (mem' ++ [bs]) p'.data pre = bs := by
      have hsame : bytesOf (mem' ++ [bs]) p'.data pre = bytesOf mem' p'.data pre := by
        refine congrArg List.flatten (List.map_congr_left fun f hf => ?_)
        refine Fragment.Valid.bytes_mono (hu.sound.valid f ?_) hgrow p'.data
        rw [hfrags]
        exact List.mem_append_right _ (List.mem_append_left _ hf)
      exact hsame.trans hb.symm
    change bytesOf (mem' ++ [bs]) p'.data (p'.frags.take i ++ _ :: rest) = _
    rw [← hold, bytesOf_append, bytesOf_cons, bytes_buffer List.getElem?_concat_length rfl]
    conv_rhs => rw [hfrags, bytesOf_append, bytesOf_append, hpre]

theorem Sound.getHeader {offset size : Nat} {o : Option (Nat × Nat)} {r : Impl × Mem}
    (h : Sound mem p) (hr : p.getHeader mem offset size = .ok (o, r)) :
    Becomes mem p.len (p.bytes mem) r := by
  have hsame : Becomes mem p.len (p.bytes mem) (p, mem) := (Copied.refl h).becomes
  unfold Impl.getHeader at hr
  split at hr
  · obtain ⟨-, rfl⟩ := Prod.mk.inj (Except.ok.inj hr)
    exact hsame
  split at hr
  · obtain ⟨-, rfl⟩ := Prod.mk.inj (Except.ok.inj hr)
    exact hsame
  split at hr
  · obtain ⟨u, hu, hr⟩ := bind_ok.mp hr
    obtain ⟨-, rfl⟩ := Prod.mk.inj (Except.ok.inj hr)
    exact h.linearizeAt hu
  · obtain ⟨-, rfl⟩ := Prod.mk.inj (Except.ok.inj hr)
    exact hsame

theorem Fragment.bytes_part (f : Fragment) {off size : Nat} (h : size ≤ f.size - off) :
    ({ f with off := f.off + off, size := size } : Fragment).bytes mem data =
      ((f.bytes mem data).drop off).take size := by
  obtain ⟨loc, start, old⟩ := f
  simp only at h
  cases loc with
  | data =>
    simp only [Fragment.bytes]
    rw [List.drop_take, List.take_take, Nat.min_eq_left h, List.drop_drop]
  | buf i =>
    simp only [Fragment.bytes]
    rw [List.drop_take, List.take_take, Nat.min_eq_left h, List.drop_drop]

/-- The fragments `share` takes are parts of fragments. -/
theorem collect_spec {off n : Nat} (hv : ∀ f ∈ fs, f.Valid mem) (ho : ∀ f ∈ fs, f.Outside)
    (hd : data.length = internalDataSize) (hoff : ∀ f gs, fs = f :: gs → off ≤ f.size)
    (h : Impl.collect off n fs = some gs) :
    (∀ g ∈ gs, g.Valid mem ∧ g.Outside) ∧
      bytesOf mem data gs = ((bytesOf mem data fs).drop off).take n := by
  induction fs generalizing off n gs with
  | nil =>
    cases n with
    | zero =>
      obtain rfl := Option.some.inj h
      exact ⟨fun g hg => absurd hg List.not_mem_nil, by simp⟩
    | succ n => cases h
  | cons f fs ih =>
    cases n with
    | zero =>
      obtain rfl := Option.some.inj h
      exact ⟨fun g hg => absurd hg List.not_mem_nil, by simp⟩
    | succ n =>
      rw [Impl.collect] at h
      obtain ⟨gs', hgs, rfl⟩ := Option.map_eq_some_iff.mp h
      obtain ⟨hall, hb⟩ := ih (fun g hg => hv g (List.mem_cons_of_mem _ hg))
        (fun g hg => ho g (List.mem_cons_of_mem _ hg)) (fun _ _ _ => Nat.zero_le _) hgs
      have hfv := hv f List.mem_cons_self
      have hle := hoff f fs rfl
      have hmin : min (n + 1) (f.size - off) ≤ f.size - off := Nat.min_le_right _ _
      refine ⟨fun g hg => ?_, ?_⟩
      · rcases List.mem_cons.mp hg with rfl | hg
        · constructor
          · exact (hfv.cutFront hle).shorten hmin
          · intro hl
            have hz := hfv.size_of_outside (ho f List.mem_cons_self) hl
            have hst := ho f List.mem_cons_self hl
            change f.off + off = internalDataSize
            omega
        · exact hall g hg
      · rw [bytesOf_cons, hb, List.drop_zero, f.bytes_part hmin, bytesOf_cons]
        have hlen : (f.bytes mem data).length = f.size := hfv.length_bytes hd
        rw [List.drop_append_of_le_length (by omega), List.take_append, List.length_drop, hlen]
        congr 1
        · rcases Nat.le_total (n + 1) (f.size - off) with hc | hc
          · rw [Nat.min_eq_left hc]
          · rw [Nat.min_eq_right hc, List.take_of_length_le (by rw [List.length_drop]; omega),
              List.take_of_length_le (by rw [List.length_drop]; omega)]
        · congr 1
          omega

theorem Unused.becomes {r : Impl × Mem} (h : Unused mem p r) : Becomes mem p.len (p.bytes mem) r :=
  ⟨h.grows, h.sound, h.len, h.bytes⟩

/-- A packet with fragments outside of `_data`, in an impl that is still empty. -/
theorem Sound.of_outside (hd : p.data.length = internalDataSize)
    (hh : p.headroom = internalDataSize) (hv : ∀ f ∈ p.frags, f.Valid mem)
    (ho : ∀ f ∈ p.frags, f.Outside) : Sound mem p :=
  ⟨hd, hv, fun f hf => ho f (List.mem_of_mem_tail hf), by rw [hh, front_of_outside ho]⟩

theorem Sound.share {offset len : Nat} {n : Impl} {r : Impl × Mem} (h : Sound mem p)
    (hr : p.share mem offset len = .ok (n, r)) :
    Becomes mem p.len (p.bytes mem) r ∧
      Becomes mem (UInt32.ofNat len) (((p.bytes mem).drop offset).take len) (n, r.2) := by
  have hu := h.unuse
  unfold Impl.share at hr
  generalize p.unuseInternalData mem = u at hu hr
  obtain ⟨p', mem'⟩ := u
  simp only at hr
  obtain ⟨n₀, hn₀, hr⟩ := bind_ok.mp hr
  obtain ⟨n₁, hn₁, hr⟩ := bind_ok.mp hr
  obtain ⟨hnil, -, hh, hd⟩ := (allocate_returns 1).of_ok hn₀
  have hempty : Sound mem' n₀ :=
    .of_outside hd hh (by simp [hnil]) (by simp [hnil])
  have hcopied := (hempty.allocateIfNeeded p'.frags.length).of_ok hn₁
  have hh₁ : n₁.headroom = internalDataSize := (hcopied.headroom hempty).trans hh
  obtain ⟨pre, hf, hn, hstop⟩ := dropWhole_spec offset p'.frags
  generalize Impl.dropWhole offset p'.frags = d at hr hf hn hstop
  obtain ⟨off, frags⟩ := d
  simp only at hf hn hstop
  have hr : (n₁.takePart off len frags >>= fun n => .ok (n, p', mem')) = .ok (n, r) := by
    cases frags with
    | nil =>
      cases off with
      | zero => exact hr
      | succ off => cases hr
    | cons f fs =>
      cases off with
      | zero => exact hr
      | succ off => exact hr
  obtain ⟨n₂, htake, hr⟩ := bind_ok.mp hr
  obtain ⟨rfl, rfl⟩ := Prod.mk.inj (Except.ok.inj hr)
  unfold Impl.takePart at htake
  split at htake
  swap
  · cases htake
  cases hc : Impl.collect off len frags with
  | none =>
    rw [hc] at htake
    cases htake
  | some gs =>
    rw [hc] at htake
    obtain rfl := Except.ok.inj htake
    have hmem : ∀ f ∈ frags, f ∈ p'.frags := fun f hm => by
      rw [hf]
      exact List.mem_append_right _ hm
    obtain ⟨hgs, hbytes⟩ := collect_spec
      (fun f hm => hu.sound.valid f (hmem f hm)) (fun f hm => hu.outside f (hmem f hm))
      hu.sound.data (fun f fs hfs => by have := hstop f fs hfs; omega) hc
    refine ⟨hu.becomes, hu.grows, ?_, rfl, ?_⟩
    · exact .of_outside hcopied.sound.data hh₁ (fun f hm => (hgs f hm).1) fun f hm => (hgs f hm).2
    · have hlpre := length_bytesOf (hu.sound.valid_append hf).1 hu.sound.data
      have hb : p.bytes mem = bytesOf mem' p'.data pre ++ bytesOf mem' p'.data frags := by
        rw [← bytesOf_append, ← hf]
        exact hu.bytes.symm
      rw [hb, hn, Nat.add_comm, ← hlpre, List.drop_length_add_append, ← hbytes]
      exact congrArg List.flatten
        (map_bytes_congr (fun f hm => (hgs f hm).2) hu.sound.data hcopied.sound.data)

/-! ## Constructors -/

theorem allocate_becomes (mem : Mem) (nr : Nat) :
    Returns (fun p => Becomes mem 0 [] (p, mem)) (Impl.allocate nr) := by
  refine (allocate_returns nr).mono fun p ⟨hnil, hlen, hh, hd⟩ => ?_
  refine ⟨List.prefix_refl _, .of_outside hd hh ?_ ?_, hlen, ?_⟩
  · rw [hnil]
    nofun
  · rw [hnil]
    nofun
  · simp [Impl.bytes, hnil]

theorem ofFragment_becomes (mem : Mem) (bs : Bytes) :
    Becomes mem (UInt32.ofNat bs.length) bs (Impl.ofFragment mem bs) := by
  unfold Impl.ofFragment
  split
  · rename_i hle
    have hfit : internalDataSize - bs.length + bs.length ≤ internalDataSize := by omega
    have hrep : (List.replicate internalDataSize (0 : UInt8)).length = internalDataSize :=
      List.length_replicate
    have hd := length_overwrite_data hrep hfit
    refine ⟨List.prefix_refl _, ⟨hd, ?_, nofun, rfl⟩, rfl, ?_⟩
    · intro f hf
      rw [List.mem_singleton.mp hf]
      exact hfit
    · simp only [Impl.bytes, List.map_cons, List.map_nil, List.flatten_cons, List.flatten_nil,
        List.append_nil]
      exact bytes_overwrite rfl (by rw [hrep]; exact hfit)
  · refine ⟨List.prefix_append _ _, .of_outside List.length_replicate rfl ?_ ?_, rfl, ?_⟩
    · intro f hf
      rw [List.mem_singleton.mp hf]
      exact ⟨bs, List.getElem?_concat_length, by simp⟩
    · intro f hf
      rw [List.mem_singleton.mp hf]
      nofun
    · simp only [Impl.bytes, List.map_cons, List.map_nil, List.flatten_cons, List.flatten_nil,
        List.append_nil]
      exact bytes_buffer List.getElem?_concat_length rfl

theorem wholeBuffers_spec (mem : Mem) (bss : List Bytes) (data : Bytes) :
    (∀ f ∈ Impl.wholeBuffers mem.length bss, f.Valid (mem ++ bss) ∧ f.Outside) ∧
      bytesOf (mem ++ bss) data (Impl.wholeBuffers mem.length bss) = bss.flatten := by
  induction bss generalizing mem with
  | nil => exact ⟨nofun, rfl⟩
  | cons b bss ih =>
    obtain ⟨hall, hb⟩ := ih (mem ++ [b])
    have hassoc : mem ++ [b] ++ bss = mem ++ b :: bss := List.append_assoc mem [b] bss
    have hlen : (mem ++ [b]).length = mem.length + 1 := List.length_append
    rw [hassoc, hlen] at hall hb
    have hget : (mem ++ b :: bss)[mem.length]? = some b := by simp
    refine ⟨fun f hf => ?_, ?_⟩
    · rcases List.mem_cons.mp hf with rfl | hf
      · exact ⟨⟨b, hget, by simp⟩, nofun⟩
      · exact hall f hf
    · rw [Impl.wholeBuffers, bytesOf_cons, hb, bytes_buffer hget rfl, List.flatten_cons]

theorem ofFrags_becomes (mem : Mem) (bss : List Bytes) :
    Returns (Becomes mem (UInt32.ofNat (fragsLen bss)) bss.flatten) (Impl.ofFrags mem bss) := by
  refine (allocate_returns bss.length).bind fun p ⟨_, _, hh, hd⟩ => .ok ?_
  obtain ⟨hall, hb⟩ := wholeBuffers_spec mem bss p.data
  exact ⟨List.prefix_append _ _, .of_outside hd hh (fun f hf => (hall f hf).1)
    fun f hf => (hall f hf).2, rfl, hb⟩

end Seastar.Net.PacketImpl
