import Mathlib.Data.List.Dedup
import Seastar.Lib.UInt
import Seastar.Net.Ipv4.Received

/-!
The memory of the fragments that wait for the rest of their datagram: `_frag_mem` is the sum
of their sizes, `_frags_age` has their keys in the order in which they came, and when there
is too much the oldest go until the rest is not above the low threshold.
-/

namespace Seastar.Net

open Lib

/-! ## What a merge adds -/

namespace PacketMerger

variable {O : Type} {w : Nat} {offset : O} {p : Packet} {map out : List (O × Packet)}

/-- The bytes of the packets, and `w` for each of them. -/
def held (w : Nat) (map : List (O × Packet)) : Nat := (map.map fun x => x.2.len + w).sum

@[simp] theorem held_cons (x : O × Packet) (map : List (O × Packet)) :
    held w (x :: map) = x.2.len + w + held w map := rfl

variable [MergeOffset O]

theorem firstPass_held {r : FirstPass O} (h : firstPass offset p map = .ok r) :
    match r with
    | .done => True
    | .insert map' q => q.len + held w map' ≤ p.len + held w map
    | .appended map' => held w map' ≤ p.len + held w map := by
  induction map generalizing r with
  | nil =>
    obtain rfl := Except.ok.inj h
    exact Nat.le_refl _
  | cons x map ih =>
    obtain ⟨segBeg, segPkt⟩ := x
    simp only [firstPass] at h
    split at h
    · obtain rfl := Except.ok.inj h
      trivial
    split at h
    · obtain rfl := Except.ok.inj h
      simp only [held_cons]
      omega
    split at h
    · obtain ⟨q, hq, rfl⟩ := map_ok.mp h
      have hlen := (Packet.trimFront_spec hq).2.2
      simp only [held_cons, Packet.len_append, hlen]
      omega
    split at h
    · obtain ⟨q, hq, rfl⟩ := map_ok.mp h
      have hlen := (Packet.trimFront_spec hq).2.2
      simp only [held_cons, Packet.len_linearize, Packet.len_append, hlen]
      omega
    · obtain ⟨r, hr, rfl⟩ := map_ok.mp h
      have hrest := ih hr
      cases r with
      | done => trivial
      | insert map' q =>
        simp only [FirstPass.cons, held_cons] at hrest ⊢
        omega
      | appended map' =>
        simp only [FirstPass.cons, held_cons] at hrest ⊢
        omega

theorem emplace_held (k : O) (p : Packet) (map : List (O × Packet)) :
    held w (emplace k p map) ≤ p.len + w + held w map := by
  induction map with
  | nil => exact Nat.le_refl _
  | cons x map ih =>
    obtain ⟨k', p'⟩ := x
    rw [emplace]
    split
    · simp only [held_cons]
      omega
    split
    · exact Nat.le_refl _
    · simp only [held_cons]
      omega

theorem secondPass_held (h : secondPass offset p map = .ok out) :
    held w out ≤ p.len + w + held w map := by
  induction map generalizing offset p out with
  | nil =>
    obtain rfl := Except.ok.inj h
    exact Nat.le_refl _
  | cons x map ih =>
    obtain ⟨beg, q⟩ := x
    simp only [secondPass] at h
    split at h
    · obtain ⟨r, hr, h⟩ := bind_ok.mp h
      have hlen := (Packet.trimFront_spec hr).2.2
      have hrest := ih h
      simp only [held_cons, Packet.len_append, hlen] at hrest ⊢
      omega
    split at h
    · have hrest := ih h
      simp only [held_cons]
      omega
    split at h
    · obtain ⟨rest, hr, rfl⟩ := map_ok.mp h
      have hrest := ih hr
      simp only [held_cons]
      omega
    · cases h

theorem mergeAdjacent_held (h : mergeAdjacent map = .ok out) : held w out ≤ held w map := by
  cases map with
  | nil =>
    obtain rfl := Except.ok.inj h
    exact Nat.le_refl _
  | cons x map => exact secondPass_held h

/-- A merge adds no more than the packet. -/
theorem merge_held (h : merge offset p map = .ok out) :
    held w out ≤ p.len + w + held w map := by
  obtain ⟨r, hr, h⟩ := bind_ok.mp h
  have hfirst := firstPass_held (w := w) hr
  cases r with
  | done =>
    obtain rfl := Except.ok.inj h
    omega
  | insert map' q =>
    have hsecond := mergeAdjacent_held (w := w) h
    have hplace := emplace_held (w := w) offset q.linearize map'
    rw [Packet.len_linearize] at hplace
    omega
  | appended map' =>
    have hsecond := mergeAdjacent_held (w := w) h
    omega

end PacketMerger

namespace Ipv4

variable {c : Platform} {s t : Ipv4} {id : FragId} {f g : Frag} {frags : List (FragId × Frag)}
  {n : Nat}

/-! ## Sizes -/

/-- The sum of `mem_size` over the entries. -/
def memory (frags : List (FragId × Frag)) : Nat := (frags.map fun e => e.2.memSize.toNat).sum

@[simp] theorem memory_cons (e : FragId × Frag) (frags : List (FragId × Frag)) :
    memory (e :: frags) = e.2.memSize.toNat + memory frags := rfl

@[simp] theorem memory_append (frags frags' : List (FragId × Frag)) :
    memory (frags ++ frags') = memory frags + memory frags' := by
  rw [memory, List.map_append, List.sum_append]
  rfl

/-- What a fragment list takes: its header and its packets, each with an impl. -/
def Frag.total (c : Platform) (f : Frag) : Nat :=
  f.header.len + c.sizeofImpl + PacketMerger.held c.sizeofImpl f.data

/-- `mem_size` is the memory of the entry. -/
def Sized (c : Platform) (f : Frag) : Prop := f.memSize.toNat = f.total c

theorem Sized.ne_zero (h : Sized c f) : f.memSize ≠ 0 := by
  intro h0
  have hpos := c.le_sizeofImpl
  rw [Sized, h0, UInt32.toNat_zero, Frag.total] at h
  rw [PacketImpl.internalDataSize] at hpos
  omega

/-- The most that a fragment adds: its payload, its header and two impls. -/
def maxAdded (c : Platform) : Nat := 65535 + 60 + 2 * c.sizeofImpl

/-- The additions of `mem_size` do not overflow when the sum is small. -/
theorem foldl_memory (c : Platform) (data : List (UInt32 × Packet)) (m : UInt32)
    (h : m.toNat + PacketMerger.held c.sizeofImpl data < 2 ^ 32) :
    (data.foldl (fun m x => m + c.memory x.2) m).toNat =
      m.toNat + PacketMerger.held c.sizeofImpl data := by
  induction data generalizing m with
  | nil => rfl
  | cons x data ih =>
    rw [PacketMerger.held_cons] at h ⊢
    have hx : (m + c.memory x.2).toNat = m.toNat + (x.2.len + c.sizeofImpl) := by
      rw [UInt32.toNat_add, Platform.memory, UInt32.toNat_ofNat']
      omega
    rw [List.foldl_cons, ih _ (by omega), hx]
    omega

/-- A merged fragment is counted, and adds at most `maxAdded`. -/
theorem merge_sized {h : ReceivedIpHdr} {offset : UInt16} {p : Packet} {added : UInt32}
    (hm : f.merge c h offset p = .ok (g, added)) (hihl : h.ihl < 16) (hp : p.len ≤ 65535)
    (hf : f.header.len ≤ 60) (hsmall : PacketMerger.held c.sizeofImpl f.data ≤ 2 ^ 24) :
    Sized c g ∧ added = g.memSize - f.memSize ∧ g.header.len ≤ 60 ∧
      g.memSize.toNat ≤ maxAdded c + PacketMerger.held c.sizeofImpl f.data := by
  obtain ⟨header, hheader, hm⟩ := bind_ok.mp hm
  obtain ⟨q, hq, hm⟩ := bind_ok.mp hm
  obtain ⟨data, hdata, hm⟩ := bind_ok.mp hm
  obtain ⟨rfl, rfl⟩ := Prod.mk.inj (Except.ok.inj hm)
  have hlen : header.len ≤ 60 := by
    unfold Frag.storeHeader at hheader
    split at hheader
    · have := Packet.share_len hheader
      unfold ReceivedIpHdr.hdrLen at this
      omega
    · obtain rfl := Except.ok.inj hheader
      exact hf
  have hq' := (Packet.trimFront_spec hq).2.2
  have hheld := PacketMerger.merge_held (w := c.sizeofImpl) hdata
  have hsize := c.sizeofImpl_lt
  have hmem : (c.memory header).toNat = header.len + c.sizeofImpl := by
    rw [Platform.memory, UInt32.toNat_ofNat']
    omega
  have hfold := foldl_memory c data (c.memory header) (by omega)
  have hsized : Sized c { f with
      header := header
      data := data
      memSize := data.foldl (fun m x => m + c.memory x.2) (c.memory header) } := by
    rw [Sized, hfold, hmem, Frag.total]
  refine ⟨hsized, rfl, hlen, ?_⟩
  simp only
  rw [hfold, hmem, maxAdded]
  omega

/-! ## The oldest fragments -/

/-- What the fields say about each other. The map is listed in the order in which its entries
were made, and `_frags_age` is the list of its keys. -/
structure Counted (c : Platform) (s : Ipv4) : Prop where
  keyed : Assoc.Keyed s.frags
  age : s.fragsAge = s.frags.map Prod.fst
  mem : s.fragMem.toNat = memory s.frags
  sized : ∀ e ∈ s.frags, Sized c e.2
  header : ∀ e ∈ s.frags, e.2.header.len ≤ 60

theorem Counted.initial : Counted c {} :=
  ⟨List.nodup_nil, rfl, rfl, nofun, nofun⟩

/-- The `n` oldest entries are gone. -/
structure OldestDropped (s t : Ipv4) (n : Nat) : Prop where
  frags : t.frags = s.frags.drop n
  age : t.fragsAge = (s.frags.drop n).map Prod.fst
  mem : t.fragMem.toNat = memory (s.frags.drop n)

theorem Counted.of_dropped (h : Counted c s) (hd : OldestDropped s t n) : Counted c t := by
  have hmem : ∀ e ∈ t.frags, e ∈ s.frags := fun e he => List.mem_of_mem_drop (hd.frags ▸ he)
  refine ⟨?_, by rw [hd.age, hd.frags], by rw [hd.mem, hd.frags], fun e he => h.sized e (hmem e he),
    fun e he => h.header e (hmem e he)⟩
  rw [Assoc.Keyed, hd.frags]
  exact h.keyed.sublist ((List.drop_sublist n _).map _)

theorem index_head : index id ((id, f) :: frags) = (f, (id, f) :: frags) := by
  rw [index, List.lookup_cons_self]

theorem erase_head (h : Assoc.Keyed ((id, f) :: frags)) :
    Assoc.erase id ((id, f) :: frags) = frags := by
  have hne : ∀ e ∈ frags, e.1 ≠ id := by
    intro e he heq
    exact (List.nodup_cons.mp h).1 (List.mem_map.mpr ⟨e, he, heq⟩)
  have hsplit : Assoc.Split id f ((id, f) :: frags) [] frags := ⟨rfl, nofun, hne⟩
  exact hsplit.erase

/-- The entry that is dropped next. -/
theorem fragDrop_head (hs : s.frags = (id, f) :: frags) (hk : Assoc.Keyed s.frags)
    (hm : s.fragMem.toNat = memory s.frags) :
    (s.fragDrop id f.memSize).frags = frags ∧
      (s.fragDrop id f.memSize).fragMem.toNat = memory frags := by
  rw [hs, memory_cons] at hm
  simp only at hm
  constructor
  · rw [hs] at hk
    rw [fragDrop, hs]
    exact erase_head hk
  · rw [fragDrop, UInt32.toNat_sub_of_le _ _ (UInt32.le_iff_toNat_le.mpr (by omega)), hm]
    omega

/-- The loop of `frag_limit_mem` drops the oldest entries, and no more than it takes to come down
to the low threshold. -/
theorem evict_spec {drop : UInt32} (hk : Assoc.Keyed s.frags)
    (hm : s.fragMem.toNat = memory s.frags)
    (hd : drop.toNat = memory s.frags - fragLowThresh.toNat) :
    ∃ n, OldestDropped s (evict drop (s.frags.map Prod.fst) s) n ∧
      memory (s.frags.drop n) ≤ fragLowThresh.toNat ∧
      ∀ k < n, fragLowThresh.toNat < memory (s.frags.drop k) := by
  induction hs : s.frags generalizing s drop with
  | nil =>
    exact ⟨0, ⟨rfl, by rw [hs]; rfl, hm⟩, Nat.zero_le _, nofun⟩
  | cons e frags ih =>
    obtain ⟨id, f⟩ := e
    rw [List.map_cons, evict]
    split
    · rename_i h0
      rw [h0, UInt32.toNat_zero, hs] at hd
      refine ⟨0, ⟨rfl, by rw [hs]; rfl, hm⟩, ?_, nofun⟩
      rw [List.drop_zero]
      omega
    · rename_i h0
      obtain ⟨hfrags, hmem⟩ := fragDrop_head hs hk hm
      rw [hs, index_head]
      simp only
      rw [hs, memory_cons] at hd
      simp only at hd
      have hpos := UInt.toNat_pos h0
      have hdrop : (drop - min drop f.memSize).toNat = memory frags - fragLowThresh.toNat := by
        have hmin := UInt.toNat_min drop f.memSize
        rw [UInt32.toNat_sub_of_le _ _ (UInt32.le_iff_toNat_le.mpr (by omega)), hmin]
        omega
      have hkeyed : Assoc.Keyed frags := by
        rw [hs] at hk
        exact (List.nodup_cons.mp hk).2
      have hsame : ({ s with frags := (id, f) :: frags } : Ipv4) = s := by rw [← hs]
      rw [hsame]
      obtain ⟨n, hn, hlow, hhigh⟩ := ih (s := s.fragDrop id f.memSize)
        (by rw [hfrags]; exact hkeyed) (by rw [hfrags]; exact hmem) (by rw [hfrags]; exact hdrop)
        hfrags
      refine ⟨n + 1, ⟨?_, ?_, ?_⟩, hlow, fun k hlt => ?_⟩
      · rw [hn.frags, hfrags, hs]
        rfl
      · rw [hn.age, hfrags, hs]
        rfl
      · rw [hn.mem, hfrags, hs]
        rfl
      · cases k with
        | zero =>
          rw [List.drop_zero, memory_cons]
          change fragLowThresh.toNat < f.memSize.toNat + memory frags
          omega
        | succ k => exact hhigh k (by omega)

/-- The loop of `frag_timeout` drops the oldest entries. -/
theorem expire_spec (now : Int) (hk : Assoc.Keyed s.frags)
    (hm : s.fragMem.toNat = memory s.frags) :
    ∃ n, OldestDropped s (expire now (s.frags.map Prod.fst) s) n := by
  induction hs : s.frags generalizing s with
  | nil =>
    exact ⟨0, rfl, by rw [hs]; rfl, hm⟩
  | cons e frags ih =>
    obtain ⟨id, f⟩ := e
    rw [List.map_cons, expire, hs, index_head]
    simp only
    have hsame : ({ s with frags := (id, f) :: frags } : Ipv4) = s := by rw [← hs]
    split
    · obtain ⟨hfrags, hmem⟩ := fragDrop_head hs hk hm
      have hkeyed : Assoc.Keyed frags := by
        rw [hs] at hk
        exact (List.nodup_cons.mp hk).2
      rw [hsame]
      obtain ⟨n, hn⟩ := ih (s := s.fragDrop id f.memSize) (by rw [hfrags]; exact hkeyed)
        (by rw [hfrags]; exact hmem) hfrags
      refine ⟨n + 1, ?_, ?_, ?_⟩
      · rw [hn.frags, hfrags, hs]
        rfl
      · rw [hn.age, hfrags, hs]
        rfl
      · rw [hn.mem, hfrags, hs]
        rfl
    · exact ⟨0, by rw [hs]; rfl, by rw [hs]; rfl, hm⟩

/-- After `frag_limit_mem` the memory is not above the high threshold, and entries were dropped
only if it was. -/
theorem Counted.fragLimitMem (h : Counted c s) :
    ∃ n, OldestDropped s s.fragLimitMem n ∧ s.fragLimitMem.fragMem.toNat ≤ fragHighThresh.toNat ∧
      (s.fragMem ≤ fragHighThresh → s.fragLimitMem = s) ∧
      (¬ s.fragMem ≤ fragHighThresh → memory (s.frags.drop n) ≤ fragLowThresh.toNat ∧
        ∀ k < n, fragLowThresh.toNat < memory (s.frags.drop k)) := by
  unfold Ipv4.fragLimitMem
  split
  · rename_i hle
    refine ⟨0, ⟨rfl, h.age, h.mem⟩, UInt32.le_iff_toNat_le.mp hle, fun _ => rfl,
      fun hgt => absurd hle hgt⟩
  · rename_i hgt
    rw [UInt32.le_iff_toNat_le] at hgt
    have hlow : fragLowThresh.toNat ≤ fragHighThresh.toNat := by decide
    have hd : (s.fragMem - fragLowThresh).toNat = memory s.frags - fragLowThresh.toNat := by
      rw [UInt32.toNat_sub_of_le _ _ (UInt32.le_iff_toNat_le.mpr (by omega)), h.mem]
    obtain ⟨n, hn, hstop, habove⟩ := evict_spec h.keyed h.mem hd
    rw [h.age]
    refine ⟨n, hn, ?_, fun hle => absurd (UInt32.le_iff_toNat_le.mp hle) hgt,
      fun _ => ⟨hstop, habove⟩⟩
    rw [hn.mem]
    omega

theorem fragTimeout_spec (now : Int) (h : Counted c s) :
    Counted c (fragTimeout now s) ∧ (fragTimeout now s).fragsAge.Sublist s.fragsAge := by
  unfold fragTimeout
  split
  · exact ⟨h, List.Sublist.refl _⟩
  · obtain ⟨n, hn⟩ := expire_spec now h.keyed h.mem
    rw [← h.age] at hn
    have hc := h.of_dropped hn
    have hsub : (expire now s.fragsAge s).fragsAge.Sublist s.fragsAge := by
      rw [hn.age, h.age]
      exact (List.drop_sublist n _).map _
    generalize expire now s.fragsAge s = u at hc hsub ⊢
    simp only
    split
    · rename_i hempty
      rw [List.isEmpty_iff] at hempty
      refine ⟨⟨hc.keyed, hc.age, ?_, hc.sized, hc.header⟩, hsub⟩
      rw [hempty]
      rfl
    · exact ⟨⟨hc.keyed, hc.age, hc.mem, hc.sized, hc.header⟩, hsub⟩

/-! ## A fragment -/

/-- What `_frags[frag_id]` finds is an entry between the others; one that is made is at the end. -/
theorem index_split (hk : Assoc.Keyed s.frags) (h : index id s.frags = (f, frags)) :
    ∃ l₁ l₂, Assoc.Split id f frags l₁ l₂ ∧
      ((frags = s.frags ∧ s.frags.lookup id = some f) ∨
        (l₁ = s.frags ∧ l₂ = [] ∧ f = {} ∧ s.frags.lookup id = none)) := by
  unfold index at h
  split at h
  · rename_i g hg
    obtain ⟨rfl, rfl⟩ := Prod.mk.inj h
    obtain ⟨l₁, l₂, hsplit⟩ := hk.split hg
    exact ⟨l₁, l₂, hsplit, Or.inl ⟨rfl, hg⟩⟩
  · rename_i hg
    obtain ⟨rfl, rfl⟩ := Prod.mk.inj h
    exact ⟨s.frags, [], ⟨rfl, Assoc.lookup_eq_none.mp hg, nofun⟩, Or.inr ⟨rfl, rfl, rfl, hg⟩⟩

/-- The key for which `_frags` gets a new entry when a fragment comes. -/
def newEntry (h : ReceivedIpHdr) (s : Ipv4) : Option FragId :=
  if (s.fragLimitMem.frags.lookup (FragId.of h)).isNone then some (FragId.of h) else none

/-- The keys of `t` are keys that `s` still has, and `new` behind them. -/
def Follows (s t : Ipv4) (new : Option FragId) : Prop :=
  ∃ l : List FragId, l.Sublist s.fragsAge ∧ (∀ id ∈ new, id ∉ l) ∧
    t.fragsAge.Sublist (l ++ new.toList)

theorem Follows.of_sublist (h : t.fragsAge.Sublist s.fragsAge) : Follows s t none :=
  ⟨s.fragsAge, List.Sublist.refl _, nofun, by simpa using h⟩

/-- An entry has taken a fragment in. -/
theorem Counted.store {l₁ l₂ : List (FragId × Frag)} {age : List FragId} {added : UInt32}
    (hc : Counted c s) (hk : Assoc.Keyed frags) (hsplit : Assoc.Split id f frags l₁ l₂)
    (hsub : ∀ e ∈ l₁ ++ l₂, e ∈ s.frags) (hage : age = frags.map Prod.fst)
    (hmem : s.fragMem.toNat = memory frags) (hadded : added = g.memSize - f.memSize)
    (hg : Sized c g) (hheader : g.header.len ≤ 60)
    (hsmall : memory (l₁ ++ l₂) + g.memSize.toNat < 2 ^ 32) :
    Counted c { s with
      frags := Assoc.set id g frags, fragsAge := age, fragMem := s.fragMem + added } := by
  have hset := hsplit.set g
  refine ⟨hk.set id g, ?_, ?_, ?_, ?_⟩
  · rw [hage, Assoc.set_keys]
  · rw [hsplit.eq, memory_append, memory_cons] at hmem
    rw [memory_append] at hsmall
    simp only [hset.eq, memory_append, memory_cons, hadded] at hmem ⊢
    have hlt := f.memSize.toNat_lt
    rw [UInt32.toNat_add, UInt32.toNat_sub]
    omega
  · exact hset.forall_mem.mpr ⟨hg, fun e he => hc.sized e (hsub e he)⟩
  · exact hset.forall_mem.mpr ⟨hheader, fun e he => hc.header e (hsub e he)⟩

/-- A datagram is complete, and its entry is dropped. -/
theorem Counted.complete {l₁ l₂ : List (FragId × Frag)} (hc : Counted c s)
    (hsplit : Assoc.Split id f s.frags l₁ l₂) :
    Counted c { s.fragDrop id f.memSize with fragsAge := s.fragsAge.filter (· ≠ id) } := by
  have herase : (s.fragDrop id f.memSize).frags = l₁ ++ l₂ := hsplit.erase
  have hsub : ∀ e ∈ l₁ ++ l₂, e ∈ s.frags := by
    intro e he
    rw [hsplit.eq]
    exact (List.mem_append.mp he).elim (List.mem_append_left _)
      fun he => List.mem_append_right _ (List.mem_cons_of_mem _ he)
  have hmem := hc.mem
  rw [hsplit.eq, memory_append, memory_cons] at hmem
  simp only at hmem
  refine ⟨hc.keyed.erase id, ?_, ?_, ?_, ?_⟩
  · change s.fragsAge.filter _ = (Assoc.erase id s.frags).map Prod.fst
    rw [hc.age, Assoc.erase, List.filter_map]
    rfl
  · simp only [herase, memory_append]
    rw [fragDrop, UInt32.toNat_sub_of_le _ _ (UInt32.le_iff_toNat_le.mpr (by omega)), hmem]
    omega
  · simp only [herase]
    exact fun e he => hc.sized e (hsub e he)
  · simp only [herase]
    exact fun e he => hc.header e (hsub e he)

theorem receiveFragment_spec {now : Int} {src : Bytes} {h : ReceivedIpHdr} {p : Packet}
    {out : Option Delivered} (hs : Counted c s) (hihl : h.ihl < 16) (hp : p.len ≤ 65535)
    (hr : s.receiveFragment c now src h p = .ok (t, out)) :
    Counted c t ∧ Follows s t (newEntry h s) := by
  obtain ⟨n, hn, hhigh, -, -⟩ := hs.fragLimitMem
  have hc := hs.of_dropped hn
  have hsub : s.fragLimitMem.fragsAge.Sublist s.fragsAge := by
    rw [hn.age, hs.age]
    exact (List.drop_sublist n _).map _
  unfold receiveFragment at hr
  unfold newEntry Follows
  generalize s.fragLimitMem = u at hr hc hhigh hsub ⊢
  simp only at hr
  generalize hidx : index (FragId.of h) u.frags = r at hr
  obtain ⟨f, frags⟩ := r
  obtain ⟨l₁, l₂, hsplit, hcase⟩ := index_split hc.keyed hidx
  obtain ⟨⟨g, added⟩, hm, hr⟩ := bind_ok.mp hr
  obtain ⟨complete, -, hr⟩ := bind_ok.mp hr
  have hkeyed : Assoc.Keyed frags := by
    rcases hcase with ⟨rfl, -⟩ | ⟨rfl, rfl, -, hnone⟩
    · exact hc.keyed
    · rw [hsplit.eq]
      exact hc.keyed.concat hnone f
  have hrest : ∀ e ∈ l₁ ++ l₂, e ∈ u.frags := by
    rcases hcase with ⟨rfl, -⟩ | ⟨rfl, rfl, -, -⟩
    · intro e he
      rw [hsplit.eq]
      exact (List.mem_append.mp he).elim (List.mem_append_left _)
        fun he => List.mem_append_right _ (List.mem_cons_of_mem _ he)
    · intro e he
      rwa [List.append_nil] at he
  -- a new entry counts for nothing yet
  have hmem : u.fragMem.toNat = memory frags := by
    rcases hcase with ⟨rfl, -⟩ | ⟨rfl, rfl, rfl, -⟩
    · exact hc.mem
    · rw [hsplit.eq, memory_append]
      exact hc.mem
  have hheld : PacketMerger.held c.sizeofImpl f.data ≤ f.memSize.toNat ∧ f.header.len ≤ 60 := by
    rcases hcase with ⟨-, hfound⟩ | ⟨-, -, rfl, -⟩
    · have hentry := Assoc.mem_of_lookup hfound
      have hsize : f.memSize.toNat = f.total c := hc.sized _ hentry
      rw [Frag.total] at hsize
      exact ⟨by omega, hc.header _ hentry⟩
    · exact ⟨Nat.le_refl _, by decide⟩
  have hage : (if f.memSize = 0 then u.fragsAge ++ [FragId.of h] else u.fragsAge) =
      u.fragsAge ++ (if (u.frags.lookup (FragId.of h)).isNone then some (FragId.of h)
        else none).toList ∧
      (if f.memSize = 0 then u.fragsAge ++ [FragId.of h] else u.fragsAge) = frags.map Prod.fst := by
    rcases hcase with ⟨rfl, hfound⟩ | ⟨rfl, rfl, rfl, hnone⟩
    · rw [if_neg (hc.sized _ (Assoc.mem_of_lookup hfound)).ne_zero, hfound, hc.age]
      simp
    · rw [if_pos rfl, hnone, hsplit.eq, hc.age]
      simp
  have hnew : ∀ id ∈ (if (u.frags.lookup (FragId.of h)).isNone then some (FragId.of h) else none),
      id ∉ u.fragsAge := by
    intro id hid hin
    rw [Option.mem_ite_none_right, Option.isNone_iff_eq_none, Option.mem_some_iff] at hid
    obtain ⟨hnone, rfl⟩ := hid
    rw [hc.age] at hin
    obtain ⟨e, he, heq⟩ := List.mem_map.mp hin
    exact Assoc.lookup_eq_none.mp hnone e he heq
  have hsum : memory (l₁ ++ l₂) + f.memSize.toNat = u.fragMem.toNat := by
    rw [hmem, hsplit.eq]
    simp only [memory_append, memory_cons]
    omega
  have hthresh : fragHighThresh.toNat = 4194304 := rfl
  have hsize := c.sizeofImpl_lt
  obtain ⟨hg, hadded, hgh, hbound⟩ := merge_sized hm hihl hp hheld.2
    (by change PacketMerger.held c.sizeofImpl f.data ≤ _; omega)
  have hbound : g.memSize.toNat ≤ maxAdded c + PacketMerger.held c.sizeofImpl f.data := hbound
  have hv := hc.store hkeyed hsplit hrest hage.2 hmem hadded hg hgh
    (by unfold maxAdded at hbound; omega)
  rw [hage.1] at hv hr
  split at hr
  · obtain ⟨o, -, hr⟩ := bind_ok.mp hr
    obtain ⟨rfl, -⟩ := Prod.mk.inj (Except.ok.inj hr)
    exact ⟨hv.complete (hsplit.set g), u.fragsAge, hsub, hnew, List.filter_sublist⟩
  split at hr
  · obtain ⟨rfl, -⟩ := Prod.mk.inj (Except.ok.inj hr)
    exact ⟨⟨hv.keyed, hv.age, hv.mem, hv.sized, hv.header⟩, u.fragsAge, hsub, hnew,
      List.Sublist.refl _⟩
  · obtain ⟨rfl, -⟩ := Prod.mk.inj (Except.ok.inj hr)
    exact ⟨hv, u.fragsAge, hsub, hnew, List.Sublist.refl _⟩

/-- A fragment is no longer than its length field says. -/
theorem accept_fragment {ip : UInt32} {reassembled : Bool} {p q : Packet} {h : ReceivedIpHdr}
    (ha : accept c ip reassembled p = .ok (.fragment h q)) : h.ihl < 16 ∧ q.len ≤ 65535 := by
  unfold accept at ha
  split at ha
  · cases ha
  rename_i iph hiph
  obtain ⟨bad, -, ha⟩ := bind_ok.mp ha
  split at ha
  · cases ha
  simp only at ha
  split at ha
  · cases ha
  rename_i hlen
  obtain ⟨r, hr, ha⟩ := bind_ok.mp ha
  have hlt := (ReceivedIpHdr.read iph.mem).len.toNat_lt
  have hrlen : r.len = (ReceivedIpHdr.read iph.mem).len.toNat := by
    obtain ⟨r', hr', -, hl⟩ := Packet.trimBack_ok (p := iph.p)
      (n := iph.p.len - (ReceivedIpHdr.read iph.mem).len.toNat) (Nat.sub_le _ _)
    obtain rfl := Except.ok.inj (hr'.symm.trans hr)
    omega
  split at ha
  · cases ha
  split at ha
  · cases ha
  split at ha
  · cases ha
  split at ha
  · obtain ⟨rfl, rfl⟩ := Accepted.fragment.inj (Except.ok.inj ha)
    exact ⟨Nat.mod_lt _ (by decide), by omega⟩
  · cases ha

/-! ## Runs -/

/-- The key for which an event makes a new entry. -/
def created (c : Platform) (s : Ipv4) : Event → Option FragId
  | .received _ reassembled p _ =>
    match accept c s.hostAddress reassembled p with
    | .ok (.fragment h _) => newEntry h s
    | _ => none
  | _ => none

/-- The keys for which the events of a run make new entries, oldest first. -/
def creations (c : Platform) : Ipv4 → List Event → List FragId
  | _, [] => []
  | s, e :: es =>
    (created c s e).toList ++
      match step c s e with
      | .ok t => creations c t es
      | .error _ => []

theorem step_spec {e : Event} (h : Counted c s) (hs : step c s e = .ok t) :
    Counted c t ∧ Follows s t (created c s e) := by
  cases e with
  | received now reassembled p src =>
    obtain ⟨⟨u, out⟩, hu, hs⟩ := bind_ok.mp hs
    obtain rfl := Except.ok.inj hs
    obtain ⟨a, ha, hu⟩ := bind_ok.mp hu
    rw [created, ha]
    cases a with
    | dropped =>
      obtain ⟨rfl, -⟩ := Prod.mk.inj (Except.ok.inj hu)
      exact ⟨h, .of_sublist (List.Sublist.refl _)⟩
    | fragment hdr q =>
      obtain ⟨hihl, hq⟩ := accept_fragment ha
      exact receiveFragment_spec h hihl hq hu
    | whole hdr q =>
      simp only at hu
      split at hu
      · obtain ⟨rfl, -⟩ := Prod.mk.inj (Except.ok.inj hu)
        exact ⟨h, .of_sublist (List.Sublist.refl _)⟩
      · obtain ⟨r, -, hu⟩ := bind_ok.mp hu
        obtain ⟨rfl, -⟩ := Prod.mk.inj (Except.ok.inj hu)
        exact ⟨h, .of_sublist (List.Sublist.refl _)⟩
  | clock now =>
    simp only [step] at hs
    split at hs
    · obtain rfl := Except.ok.inj hs
      have hdisarmed : Counted c { s with fragTimer := none } :=
        ⟨h.keyed, h.age, h.mem, h.sized, h.header⟩
      obtain ⟨hc, hsub⟩ := fragTimeout_spec now hdisarmed
      exact ⟨hc, .of_sublist hsub⟩
    · obtain rfl := Except.ok.inj hs
      exact ⟨h, .of_sublist (List.Sublist.refl _)⟩
  | setHostAddress ip =>
    obtain rfl := Except.ok.inj hs
    exact ⟨⟨h.keyed, h.age, h.mem, h.sized, h.header⟩, .of_sublist (List.Sublist.refl _)⟩

/-- A key that comes again goes to the end. -/
theorem dedup_concat {α : Type} [DecidableEq α] (l : List α) (a : α) :
    (l ++ [a]).dedup = l.dedup.filter (· ≠ a) ++ [a] := by
  induction l with
  | nil => rfl
  | cons b l ih =>
    rw [List.cons_append]
    by_cases hb : b ∈ l
    · rw [List.dedup_cons_of_mem (List.mem_append_left _ hb), List.dedup_cons_of_mem hb, ih]
    · rw [List.dedup_cons_of_notMem hb]
      by_cases hba : b = a
      · rw [List.dedup_cons_of_mem (List.mem_append_right _ (List.mem_singleton.mpr hba)), ih,
          List.filter_cons_of_neg (by simpa using hba)]
      · rw [List.dedup_cons_of_notMem (by simp [hb, hba]), ih,
          List.filter_cons_of_pos (by simpa using hba)]
        rfl

/-- The keys stay in the order in which their entries were made. -/
theorem Follows.order {made : List FragId} {new : Option FragId} (h : Follows s t new)
    (hs : s.fragsAge.Sublist made.dedup) : t.fragsAge.Sublist (made ++ new.toList).dedup := by
  obtain ⟨l, hl, hnew, ht⟩ := h
  cases new with
  | none =>
    simp only [Option.toList_none, List.append_nil] at ht ⊢
    exact ht.trans (hl.trans hs)
  | some id =>
    have hid : id ∉ l := hnew id rfl
    rw [Option.toList_some] at ht ⊢
    rw [dedup_concat]
    refine ht.trans (List.Sublist.append_right ?_ _)
    have hfilter : l.filter (· ≠ id) = l :=
      List.filter_eq_self.mpr fun a ha => decide_eq_true fun h => hid (h ▸ ha)
    rw [← hfilter]
    exact (hl.trans hs).filter _

theorem run_spec {es : List Event} (made : List FragId) (h : Counted c s)
    (hs : s.fragsAge.Sublist made.dedup) (hr : run c s es = .ok t) :
    Counted c t ∧ t.fragsAge.Sublist (made ++ creations c s es).dedup := by
  induction es generalizing s made with
  | nil =>
    obtain rfl := Except.ok.inj hr
    rw [creations, List.append_nil]
    exact ⟨h, hs⟩
  | cons e es ih =>
    obtain ⟨u, hu, hr⟩ := Run.run_cons_ok.mp hr
    obtain ⟨hc, hfollows⟩ := step_spec h hu
    rw [creations, hu, ← List.append_assoc]
    exact ih _ hc (hfollows.order hs) hr

/-- `_frag_mem` is the sum of `mem_size` over `_frags`, and `_frags_age` has the keys of `_frags`,
each once, in the order in which their entries were made. -/
structure Accounted (made : List FragId) (s : Ipv4) : Prop where
  mem : s.fragMem.toNat = memory s.frags
  nodup : s.fragsAge.Nodup
  keys : ∀ id, id ∈ s.fragsAge ↔ (s.frags.lookup id).isSome = true
  order : s.fragsAge.Sublist made.dedup

/-- The entries of the `n` oldest keys are dropped. -/
def withoutOldest (n : Nat) (s : Ipv4) : List (FragId × Frag) :=
  s.frags.filter fun e => e.1 ∉ s.fragsAge.take n

/-- `t` is `s` with its oldest entries dropped, one after the other as long as the memory was above
the low threshold and no longer. -/
def StopsAtLow (s t : Ipv4) : Prop :=
  ∃ n, t.frags = withoutOldest n s ∧ t.fragsAge = s.fragsAge.drop n ∧
    t.fragMem.toNat = memory (withoutOldest n s) ∧
    memory (withoutOldest n s) ≤ fragLowThresh.toNat ∧
    ∀ k < n, fragLowThresh.toNat < memory (withoutOldest k s)

theorem Counted.withoutOldest (h : Counted c s) (n : Nat) : withoutOldest n s = s.frags.drop n := by
  have hk := h.keyed
  rw [Assoc.Keyed, ← List.take_append_drop n s.frags, List.map_append, List.nodup_append] at hk
  have htake : (s.frags.take n).filter (fun e => e.1 ∉ s.fragsAge.take n) = [] := by
    rw [List.filter_eq_nil_iff]
    intro e he
    rw [decide_eq_true_iff, not_not, h.age, ← List.map_take]
    exact List.mem_map_of_mem he
  have hdrop : (s.frags.drop n).filter (fun e => e.1 ∉ s.fragsAge.take n) = s.frags.drop n := by
    rw [List.filter_eq_self]
    intro e he
    rw [decide_eq_true_iff, h.age, ← List.map_take]
    intro hin
    exact hk.2.2 _ hin _ (List.mem_map_of_mem he) rfl
  rw [Ipv4.withoutOldest]
  conv_lhs => rw [← List.take_append_drop n s.frags]
  rw [List.filter_append, htake, hdrop, List.nil_append]

theorem Counted.accounted {made : List FragId} (h : Counted c s)
    (hs : s.fragsAge.Sublist made.dedup) : Accounted made s := by
  refine ⟨h.mem, ?_, fun id => ?_, hs⟩
  · rw [h.age]
    exact h.keyed
  · rw [h.age, ← Option.ne_none_iff_isSome, ne_eq, Assoc.lookup_eq_none]
    simp

/-- After every run the memory of the fragments is accounted for, and `frag_limit_mem` drops nothing
up to the high threshold, and above it the oldest until the rest is not above the low one. -/
theorem run_fragMemory (c : Platform) {es : List Event} {s : Ipv4} (hr : run c {} es = .ok s) :
    Accounted (creations c {} es) s ∧
      (s.fragMem ≤ fragHighThresh → s.fragLimitMem = s) ∧
      (fragHighThresh < s.fragMem → StopsAtLow s s.fragLimitMem) := by
  obtain ⟨hc, horder⟩ := run_spec [] Counted.initial (List.Sublist.refl _) hr
  rw [List.nil_append] at horder
  obtain ⟨n, hn, -, hkeep, hstop⟩ := hc.fragLimitMem
  refine ⟨hc.accounted horder, hkeep, fun hgt => ?_⟩
  obtain ⟨hlow, habove⟩ := hstop fun hle => absurd hle (UInt32.not_le.mpr hgt)
  refine ⟨n, ?_, ?_, ?_, ?_, fun k hk => ?_⟩
  · rw [hc.withoutOldest, hn.frags]
  · rw [hn.age, hc.age, List.map_drop]
  · rw [hc.withoutOldest, hn.mem]
  · rw [hc.withoutOldest]
    exact hlow
  · rw [hc.withoutOldest]
    exact habove k hk

/-- One CPU whose device checks the sums. -/
def onePlatform : Platform where
  netif := ⟨.oneQueue 1, registeredL3, registeredL4⟩
  cpu := 0
  hwAddress := [2, 0, 0, 0, 0, 1]
  rxCsumOffload := true
  packetFilter := none
  sizeofImpl := 200
  le_sizeofImpl := by decide
  sizeofImpl_lt := by decide

/-- Eight bytes of a datagram from 10.0.0.1 to 10.0.0.2. -/
def eightBytes (id frag : UInt16) : Packet :=
  .ofFrags [[0x45, 0] ++ writeBe16 28 ++ writeBe16 id ++ writeBe16 frag ++
    [64, 17, 0, 0, 10, 0, 0, 1, 10, 0, 0, 2, 1, 2, 3, 4, 5, 6, 7, 8]]

/-- The first fragment of a datagram, the last one of another a second later, and the timer. -/
def twoDatagrams : List Event :=
  [.setHostAddress 0x0A000002, .received 0 false (eightBytes 1 0x2000) [],
    .received 1 false (eightBytes 2 1) [], .clock 31]

/-- The second datagram is left: an empty header, eight bytes and two impls. -/
theorem run_twoDatagrams : ∃ s, run onePlatform {} twoDatagrams = .ok s ∧ s.fragMem = 408 ∧
    creations onePlatform {} twoDatagrams =
      [⟨0x0A000001, 0x0A000002, 1, 17⟩, ⟨0x0A000001, 0x0A000002, 2, 17⟩] ∧
    Accounted (creations onePlatform {} twoDatagrams) s :=
  ⟨_, rfl, by decide, by decide, (@run_fragMemory onePlatform twoDatagrams _ rfl).1⟩

end Ipv4

end Seastar.Net
