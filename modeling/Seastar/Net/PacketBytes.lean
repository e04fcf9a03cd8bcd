import Seastar.Lib.Simulation
import Seastar.Net.Headroom

/-!
Packets as byte strings: the constructors and the operations of packets put byte strings
together, in front, behind, cut and slice them, and `linearize`, `get_header` and
`reserve` do nothing to them. The packets of `PacketImpl` do the same and count the bytes
in `_len`, unless there are more than `_len` can count, or `linearize` finds no byte and
no place for the fragment it adds.
-/

namespace Seastar.Net.PacketImpl

open Lib

/-! ## Byte strings -/

/-- The byte strings of the packets there are. -/
abbrev Strings := List (Option Bytes)

namespace Strings

def get (v : Strings) (i : Nat) : Except Fault Bytes :=
  match v[i]? with
  | some (some bs) => .ok bs
  | _ => .error .movedPacket

/-- What an operation is for. -/
def step (v : Strings) : Op → Except Fault Strings
  | .empty _ => .ok (v ++ [some []])
  | .ofFragment bs => .ok (v ++ [some bs])
  | .ofFrags fs => .ok (v ++ [some fs.flatten])
  | .appendFragment i bs => do
    let b ← v.get i
    .ok (v.set i (some (b ++ bs)))
  | .prependFragment i bs => do
    let b ← v.get i
    .ok (v.set i (some (bs ++ b)))
  | .prependHeader i bs => do
    let b ← v.get i
    .ok (v.set i (some (bs ++ b)))
  | .append i j => do
    let b ← v.get i
    let c ← Strings.get (v.set i none) j
    .ok ((v.set j none).set i (some (b ++ c)))
  | .trimFront i howMuch => do
    let b ← v.get i
    if howMuch ≤ b.length then .ok (v.set i (some (b.drop howMuch))) else .error .trimTooLong
  | .trimBack i howMuch => do
    let b ← v.get i
    if howMuch ≤ b.length then .ok (v.set i (some (b.take (b.length - howMuch))))
    else .error .trimTooLong
  | .getHeader i _ _ => do
    let b ← v.get i
    .ok (v.set i (some b))
  | .linearize i => do
    let b ← v.get i
    .ok (v.set i (some b))
  | .share i offset len => do
    let b ← v.get i
    if offset + len ≤ b.length then
      .ok (v.set i (some b) ++ [some ((b.drop offset).take len)])
    else .error .shareTooLong
  | .reserve i _ => do
    let b ← v.get i
    .ok (v.set i (some b))
  | .freeOnCpu i => do
    let b ← v.get i
    .ok (v.set i (some b))
  | .reset i => .ok (v.set i none)

/-- The byte strings after the operations. -/
def run : Strings → List Op → Except Fault Strings := Run.run step

end Strings

/-! ## Places for fragments -/

variable {mem : Mem} {p q n : Impl} {r : Impl × Mem} {bs : Bytes} {fs gs : List Fragment}

/-- Every fragment has its place. -/
def Room (p : Impl) : Prop := p.frags.length ≤ p.allocatedFrags

theorem allocate_ok {nr : Nat} (h : Impl.allocate nr = .ok p) :
    p.frags = [] ∧ nr ≤ p.allocatedFrags := by
  unfold Impl.allocate at h
  split at h
  · obtain rfl := Except.ok.inj h
    exact ⟨rfl, Nat.le_max_left _ _⟩
  · cases h

theorem writeData_ok {off : Nat} (h : p.writeData off bs = .ok q) :
    q.frags = p.frags ∧ q.allocatedFrags = p.allocatedFrags := by
  unfold Impl.writeData at h
  split at h
  · obtain rfl := Except.ok.inj h
    exact ⟨rfl, rfl⟩
  · cases h

theorem copyInternalFragmentTo_ok (h : p.copyInternalFragmentTo n = .ok q)
    (hn : n.frags = p.frags) :
    q.frags.length = p.frags.length ∧ q.allocatedFrags = n.allocatedFrags := by
  unfold Impl.copyInternalFragmentTo at h
  split at h
  · rename_i f fs hp
    split at h
    · obtain ⟨hf, ha⟩ := writeData_ok h
      rw [hf, ha, hp]
      exact ⟨rfl, rfl⟩
    · obtain rfl := Except.ok.inj h
      exact ⟨congrArg List.length hn, rfl⟩
  · obtain rfl := Except.ok.inj h
    exact ⟨congrArg List.length hn, rfl⟩

theorem copy_ok {nr : Nat} (h : p.copy nr = .ok q) :
    q.frags.length = p.frags.length ∧ nr ≤ q.allocatedFrags := by
  obtain ⟨n, hn, h⟩ := bind_ok.mp h
  obtain ⟨hf, ha⟩ := copyInternalFragmentTo_ok h rfl
  exact ⟨hf, ha ▸ (allocate_ok hn).2⟩

theorem allocateIfNeeded_ok {extra : Nat} (h : p.allocateIfNeeded extra = .ok q) :
    q.frags.length = p.frags.length ∧ p.frags.length + extra ≤ q.allocatedFrags := by
  unfold Impl.allocateIfNeeded at h
  split at h
  · rename_i hle
    obtain rfl := Except.ok.inj h
    exact ⟨rfl, hle⟩
  · obtain ⟨hf, ha⟩ := copy_ok h
    exact ⟨hf, Nat.le_trans (Nat.le_max_left _ _) ha⟩

theorem Room.allocateIfNeeded {extra : Nat} (h : p.allocateIfNeeded extra = .ok q) :
    Room q := by
  obtain ⟨hf, ha⟩ := allocateIfNeeded_ok h
  unfold Room
  omega

theorem unuse_places (mem : Mem) (p : Impl) :
    (p.unuseInternalData mem).1.frags.length = p.frags.length ∧
      (p.unuseInternalData mem).1.allocatedFrags = p.allocatedFrags := by
  unfold Impl.unuseInternalData
  split
  · rename_i f fs hp
    split
    · constructor
      · rw [hp]
        rfl
      · rfl
    · exact ⟨rfl, rfl⟩
  · exact ⟨rfl, rfl⟩

theorem Room.unuse (h : Room p) : Room (p.unuseInternalData mem).1 := by
  obtain ⟨hf, ha⟩ := unuse_places mem p
  unfold Room
  rw [hf, ha]
  exact h

theorem Room.allocateHeadroom {size : Nat} (h : Room p)
    (hq : p.allocateHeadroom size = .ok (some q)) : Room q := by
  unfold Impl.allocateHeadroom at hq
  split at hq
  swap
  · cases hq
  obtain ⟨n, hn, hq⟩ := bind_ok.mp hq
  obtain ⟨t, ht, hq⟩ := bind_ok.mp hq
  obtain rfl := Option.some.inj (Except.ok.inj hq)
  have hroom : Room n := by
    unfold Impl.useInternalData at hn
    split at hn
    · obtain rfl := Except.ok.inj hn
      exact h
    · obtain ⟨u, hu, hn⟩ := bind_ok.mp hn
      obtain rfl := Except.ok.inj hn
      obtain ⟨hf, ha⟩ := allocateIfNeeded_ok hu
      change u.frags.length + 1 ≤ u.allocatedFrags
      rw [hf]
      exact ha
  unfold Impl.takeHeadroom at ht
  split at ht
  · rename_i f fs hfs
    split at ht
    · obtain rfl := Except.ok.inj ht
      unfold Room at hroom
      rw [hfs] at hroom
      exact hroom
    · cases ht
  · cases ht

theorem Room.writeFront (h : Room p) (hq : p.writeFront bs = .ok q) : Room q := by
  unfold Impl.writeFront at hq
  split at hq
  · obtain ⟨hf, ha⟩ := writeData_ok hq
    unfold Room
    rw [hf, ha]
    exact h
  · cases hq

theorem Room.pushFront (h : p.pushFront mem bs = .ok r) : Room r.1 := by
  obtain ⟨n, hn, h⟩ := bind_ok.mp h
  obtain rfl := Except.ok.inj h
  obtain ⟨hf, ha⟩ := allocateIfNeeded_ok hn
  change n.frags.length + 1 ≤ n.allocatedFrags
  rw [hf]
  exact ha

theorem Room.prependFragment (h : Room p) (hr : p.prependFragment mem bs = .ok r) :
    Room r.1 := by
  obtain ⟨o, ho, hr⟩ := bind_ok.mp hr
  cases o with
  | some q =>
    obtain ⟨q', hq', hr⟩ := bind_ok.mp hr
    obtain rfl := Except.ok.inj hr
    exact (h.allocateHeadroom ho).writeFront hq'
  | none => exact Room.pushFront hr

theorem Room.prependHeader (h : Room p) (hr : p.prependHeader mem bs = .ok r) : Room r.1 := by
  obtain ⟨o, ho, hr⟩ := bind_ok.mp hr
  cases o with
  | some q =>
    obtain ⟨q', hq', hr⟩ := bind_ok.mp hr
    obtain rfl := Except.ok.inj hr
    exact (h.allocateHeadroom ho).writeFront hq'
  | none =>
    obtain ⟨o, ho, hr⟩ := bind_ok.mp hr
    cases o with
    | some q =>
      obtain ⟨q', hq', hr⟩ := bind_ok.mp hr
      obtain rfl := Except.ok.inj hr
      exact (h.unuse.allocateHeadroom ho).writeFront hq'
    | none => exact Room.pushFront hr

theorem Room.appendFragment (h : p.appendFragment mem bs = .ok r) : Room r.1 := by
  obtain ⟨n, hn, h⟩ := bind_ok.mp h
  obtain rfl := Except.ok.inj h
  obtain ⟨hf, ha⟩ := allocateIfNeeded_ok hn
  change (n.frags ++ _).length ≤ n.allocatedFrags
  rw [List.length_append, hf]
  exact ha

theorem Room.append (hq : Room q) (h : p.append mem q = .ok r) : Room r.1 := by
  unfold Impl.append at h
  split at h
  · obtain rfl := Except.ok.inj h
    exact hq
  · obtain ⟨n, hn, h⟩ := bind_ok.mp h
    obtain rfl := Except.ok.inj h
    obtain ⟨hf, ha⟩ := allocateIfNeeded_ok hn
    change (n.frags ++ (q.unuseInternalData mem).1.frags).length ≤ n.allocatedFrags
    rw [List.length_append, hf, (unuse_places mem q).1]
    exact ha

theorem dropWhole_length (m : Nat) (fs : List Fragment) :
    (Impl.dropWhole m fs).2.length ≤ fs.length := by
  obtain ⟨pre, hfs, -⟩ := dropWhole_spec m fs
  have := congrArg List.length hfs
  rw [List.length_append] at this
  omega

theorem Room.trimFront {howMuch : Nat} (h : Room p) (hq : p.trimFront howMuch = .ok q) :
    Room q := by
  have hle := Nat.le_trans (dropWhole_length howMuch p.frags) h
  unfold Impl.trimFront at hq
  split at hq
  swap
  · cases hq
  generalize Impl.dropWhole howMuch p.frags = d at hq hle
  obtain ⟨left, frags⟩ := d
  simp only at hq hle
  cases frags with
  | nil =>
    obtain rfl := Except.ok.inj hq
    split
    · exact hle
    · exact hle
  | cons f fs =>
    simp only at hq
    split at hq
    · obtain rfl := Except.ok.inj hq
      split
      · exact hle
      · exact hle
    · obtain rfl := Except.ok.inj hq
      unfold Room
      simp only
      split
      · exact hle
      · exact hle

theorem Room.trimBack {howMuch : Nat} (h : Room p) (hq : p.trimBack howMuch = .ok q) :
    Room q := by
  have hle := dropWhole_length howMuch p.frags.reverse
  rw [List.length_reverse] at hle
  replace hle := Nat.le_trans hle h
  unfold Impl.trimBack at hq
  split at hq
  swap
  · cases hq
  generalize Impl.dropWhole howMuch p.frags.reverse = d at hq hle
  obtain ⟨left, back⟩ := d
  simp only at hq hle
  cases back with
  | nil =>
    obtain rfl := Except.ok.inj hq
    exact hle
  | cons f fs =>
    have hback : (f :: fs).reverse.length ≤ p.allocatedFrags := by
      rw [List.length_reverse]
      exact hle
    have hcut : (({ f with size := f.size - left } : Fragment) :: fs).reverse.length ≤
        p.allocatedFrags := by
      rw [List.length_reverse]
      exact hle
    simp only at hq
    split at hq
    · obtain rfl := Except.ok.inj hq
      exact hback
    · obtain rfl := Except.ok.inj hq
      split
      · exact hcut
      · exact hcut

theorem Room.linearizeAt {i desired : Nat} (h : p.linearizeAt mem i desired = .ok r) :
    Room r.1 := by
  unfold Impl.linearizeAt at h
  simp only at h
  split at h
  · rename_i hle
    obtain rfl := Except.ok.inj h
    exact hle
  · cases h

theorem Room.getHeader {offset size : Nat} {o : Option (Nat × Nat)} (h : Room p)
    (hr : p.getHeader mem offset size = .ok (o, r)) : Room r.1 := by
  unfold Impl.getHeader at hr
  split at hr
  · obtain ⟨-, rfl⟩ := Prod.mk.inj (Except.ok.inj hr)
    exact h
  split at hr
  · obtain ⟨-, rfl⟩ := Prod.mk.inj (Except.ok.inj hr)
    exact h
  split at hr
  · obtain ⟨u, hu, hr⟩ := bind_ok.mp hr
    obtain ⟨-, rfl⟩ := Prod.mk.inj (Except.ok.inj hr)
    exact Room.linearizeAt hu
  · obtain ⟨-, rfl⟩ := Prod.mk.inj (Except.ok.inj hr)
    exact h

theorem Room.reserve {nFrags : Nat} (h : Room p) (hq : p.reserve nFrags = .ok q) : Room q := by
  unfold Impl.reserve at hq
  split at hq
  · exact Room.allocateIfNeeded hq
  · obtain rfl := Except.ok.inj hq
    exact h

theorem Room.ofFrags {bss : List Bytes} (h : Impl.ofFrags mem bss = .ok r) : Room r.1 := by
  obtain ⟨n, hn, h⟩ := bind_ok.mp h
  obtain rfl := Except.ok.inj h
  have hlen : ∀ (i : Nat) (bss : List Bytes), (Impl.wholeBuffers i bss).length = bss.length := by
    intro i bss
    induction bss generalizing i with
    | nil => rfl
    | cons b bss ih => exact congrArg (· + 1) (ih (i + 1))
  change (Impl.wholeBuffers mem.length bss).length ≤ n.allocatedFrags
  rw [hlen]
  exact (allocate_ok hn).2

theorem Room.ofFragment (mem : Mem) (bs : Bytes) : Room (Impl.ofFragment mem bs).1 := by
  unfold Impl.ofFragment
  split
  · exact (by decide : 1 ≤ defaultNrFrags)
  · exact (by decide : 1 ≤ defaultNrFrags)

/-- `share` takes no more fragments than there are, and all of them when there are bytes enough. -/
theorem collect_length {off m : Nat} (h : Impl.collect off m fs = some gs) :
    gs.length ≤ fs.length := by
  induction fs generalizing off m gs with
  | nil =>
    cases m with
    | zero =>
      obtain rfl := Option.some.inj h
      exact Nat.le_refl _
    | succ m => cases h
  | cons f fs ih =>
    cases m with
    | zero =>
      obtain rfl := Option.some.inj h
      exact Nat.zero_le _
    | succ m =>
      obtain ⟨gs', hgs, rfl⟩ := Option.map_eq_some_iff.mp h
      exact Nat.succ_le_succ (ih hgs)

theorem collect_eq_none {off m : Nat} (hoff : ∀ f gs, fs = f :: gs → off ≤ f.size)
    (hnil : fs = [] → off = 0) : Impl.collect off m fs = none ↔ sizes fs < off + m := by
  induction fs generalizing off m with
  | nil =>
    obtain rfl := hnil rfl
    cases m with
    | zero => exact iff_of_false (fun h => by cases h) (Nat.lt_irrefl _)
    | succ m => exact iff_of_true rfl (by rw [sizes_nil]; omega)
  | cons f fs ih =>
    have hle := hoff f fs rfl
    rw [sizes_cons]
    cases m with
    | zero => exact iff_of_false (fun h => by cases h) (by omega)
    | succ m =>
      rw [Impl.collect, Option.map_eq_none_iff,
        ih (fun _ _ _ => Nat.zero_le _) fun _ => rfl]
      omega

/-! ## What is there to do -/

/-- `_len` is the number of the bytes, in fragments that have their places. -/
structure Whole (mem : Mem) (p : Impl) : Prop where
  sound : Sound mem p
  counted : p.len.toNat = sizes p.frags
  room : Room p

theorem Whole.length_bytes (h : Whole mem p) : (p.bytes mem).length = p.len.toNat := by
  rw [h.sound.length_bytes, h.counted]

theorem Whole.mono {mem' : Mem} (h : Whole mem p) (hm : mem <+: mem') : Whole mem' p :=
  ⟨h.sound.mono hm, h.counted, h.room⟩

/-- A packet whose `_len` counts its bytes. -/
theorem Becomes.whole {len : UInt32} (h : Becomes mem len bs r) (hlen : len.toNat = bs.length)
    (hroom : Room r.1) : Whole r.2 r.1 := by
  refine ⟨h.sound, ?_, hroom⟩
  rw [h.len, hlen, ← h.bytes, h.sound.length_bytes]

/-- The packets have these byte strings, and `_len` counts them. -/
structure Shows (s : Pool) (v : Strings) : Prop where
  strings : s.packets.map (Option.map (Impl.bytes s.mem)) = v
  whole : ∀ p, some p ∈ s.packets → Whole s.mem p

abbrev ShowsSame : Except Fault Pool → Except Fault Strings → Prop :=
  Simulates Shows .assertFailed

variable {s : Pool} {v : Strings} {i j : Nat} {len : UInt32}

/-- More buffers change no byte string. -/
theorem Shows.strings_mono {mem' : Mem} (h : Shows s v) (hm : s.mem <+: mem') :
    s.packets.map (Option.map (Impl.bytes mem')) = v := by
  rw [← h.strings]
  refine List.map_congr_left fun o ho => ?_
  cases o with
  | none => rfl
  | some p => exact congrArg some ((h.whole p ho).sound.bytes_mono hm)

theorem Shows.get (h : Shows s v) {k : Impl → Except Fault Pool}
    {k' : Bytes → Except Fault Strings}
    (hk : ∀ p, s.get i = .ok p → Whole s.mem p → ShowsSame (k p) (k' (p.bytes s.mem))) :
    ShowsSame (s.get i >>= k) (v.get i >>= k') := by
  have hv : v[i]? = s.packets[i]?.map (Option.map (Impl.bytes s.mem)) := by
    rw [← h.strings, List.getElem?_map]
  unfold Strings.get
  rw [hv]
  cases hg : s.packets[i]? with
  | none =>
    have he : s.get i = .error .movedPacket := by simp only [Pool.get, hg]
    rw [he]
    exact .fails _
  | some o =>
    cases o with
    | none =>
      have he : s.get i = .error .movedPacket := by simp only [Pool.get, hg]
      rw [he]
      exact .fails _
    | some p =>
      have he : s.get i = .ok p := Pool.get_ok.mpr hg
      have := hk p he (h.whole p (List.mem_of_getElem? hg))
      rw [he]
      exact this

theorem Shows.put (h : Shows s v) (hr : Becomes s.mem len bs r) (hlen : len.toNat = bs.length)
    (hroom : Room r.1) : Shows (s.put i r) (v.set i (some bs)) := by
  constructor
  · change (s.packets.set i (some r.1)).map (Option.map (Impl.bytes r.2)) = _
    rw [List.map_set, h.strings_mono hr.grows, Option.map_some, hr.bytes]
  · intro p hp
    rcases List.mem_or_eq_of_mem_set hp with hp | hp
    · exact (h.whole p hp).mono hr.grows
    · obtain rfl := Option.some.inj hp
      exact hr.whole hlen hroom

theorem Shows.add (h : Shows s v) (hr : Becomes s.mem len bs r) (hlen : len.toNat = bs.length)
    (hroom : Room r.1) : Shows (s.add r) (v ++ [some bs]) := by
  constructor
  · change (s.packets ++ [some r.1]).map (Option.map (Impl.bytes r.2)) = _
    rw [List.map_append, h.strings_mono hr.grows, List.map_singleton, Option.map_some, hr.bytes]
  · intro p hp
    rcases List.mem_append.mp hp with hp | hp
    · exact (h.whole p hp).mono hr.grows
    · obtain rfl := Option.some.inj (List.mem_singleton.mp hp)
      exact hr.whole hlen hroom

theorem Shows.drop (h : Shows s v) (i : Nat) :
    Shows { s with packets := s.packets.set i none } (v.set i none) := by
  constructor
  · change (s.packets.set i none).map (Option.map (Impl.bytes s.mem)) = _
    rw [List.map_set, h.strings]
    rfl
  · intro p hp
    rcases List.mem_or_eq_of_mem_set hp with hp | hp
    · exact h.whole p hp
    · cases hp

/-- The operation does nothing to the byte string of a packet. -/
theorem Shows.same (h : Shows s v) (hp : Whole s.mem p)
    (hr : Becomes s.mem p.len (p.bytes s.mem) r) (hroom : Room r.1) :
    Shows (s.put i r) (v.set i (some (p.bytes s.mem))) :=
  h.put hr hp.length_bytes.symm hroom

/-! ## What the operations return -/

theorem trimFront_ok {howMuch : Nat} (h : howMuch ≤ p.len.toNat) :
    ∃ q, p.trimFront howMuch = .ok q := by
  unfold Impl.trimFront
  rw [if_pos h]
  generalize Impl.dropWhole howMuch p.frags = d
  obtain ⟨left, frags⟩ := d
  cases frags with
  | nil => exact ⟨_, rfl⟩
  | cons f fs =>
    simp only
    split
    · exact ⟨_, rfl⟩
    · exact ⟨_, rfl⟩

theorem trimBack_ok {howMuch : Nat} (h : howMuch ≤ p.len.toNat) :
    ∃ q, p.trimBack howMuch = .ok q := by
  unfold Impl.trimBack
  rw [if_pos h]
  generalize Impl.dropWhole howMuch p.frags.reverse = d
  obtain ⟨left, back⟩ := d
  cases back with
  | nil => exact ⟨_, rfl⟩
  | cons f fs =>
    simp only
    split
    · exact ⟨_, rfl⟩
    · exact ⟨_, rfl⟩

/-- `share` finds the part that is asked for, if the packet has it. -/
theorem Whole.share (h : Whole mem p) (offset len : Nat) :
    Simulates (fun (r : Impl × Impl × Mem) (_ : Unit) => Room r.1 ∧ Room r.2.1) .assertFailed
      (p.share mem offset len)
      (if offset + len ≤ p.len.toNat then .ok () else .error .shareTooLong) := by
  have hu := h.sound.unuse
  have hroom : Room (p.unuseInternalData mem).1 := h.room.unuse
  have hsizes : sizes (p.unuseInternalData mem).1.frags = p.len.toNat := by
    rw [h.counted]
    exact congrArg List.sum hu.sizes
  have hfew : p.len.toNat < 2 ^ 32 := p.len.toNat_lt
  unfold Impl.share
  generalize p.unuseInternalData mem = u at hroom hsizes
  obtain ⟨p', mem'⟩ := u
  simp only at hroom hsizes ⊢
  rcases allocate_returns 1 with ⟨n₀, hn₀, hnil, -, hh, hd⟩ | he
  swap
  · rw [he]
    exact .stops _
  have hempty : Sound mem' n₀ := .of_outside hd hh (by simp [hnil]) (by simp [hnil])
  rw [hn₀, ok_bind]
  rcases hempty.allocateIfNeeded p'.frags.length with ⟨n₁, hn₁, -⟩ | he
  swap
  · rw [he]
    exact .stops _
  rw [hn₁, ok_bind]
  have hplaces := (allocateIfNeeded_ok hn₁).2
  have hlen := dropWhole_length offset p'.frags
  obtain ⟨pre, hf, hn, hstop⟩ := dropWhole_spec offset p'.frags
  generalize Impl.dropWhole offset p'.frags = d at hf hn hstop hlen
  obtain ⟨off, frags⟩ := d
  simp only at hf hn hstop hlen
  have hsum : sizes pre + sizes frags = p.len.toNat := by
    rw [← hsizes, ← sizes_append, ← hf]
  by_cases hend : frags = [] ∧ off ≠ 0
  · obtain ⟨rfl, hoff⟩ := hend
    obtain ⟨k, rfl⟩ := Nat.exists_eq_succ_of_ne_zero hoff
    rw [sizes_nil] at hsum
    rw [if_neg (by omega)]
    exact .fails _
  · have hzero : frags = [] → off = 0 := fun hnil => by
      by_contra hne
      exact hend ⟨hnil, hne⟩
    have hiff := collect_eq_none (m := len)
      (fun f fs hfs => by have := hstop f fs hfs; omega) hzero
    refine Eq.mpr (congrArg (Simulates _ _ · _)
      (?_ : _ = (n₁.takePart off len frags >>= fun n => .ok (n, p', mem')))) ?_
    · cases frags with
      | nil =>
        obtain rfl := hzero rfl
        rfl
      | cons f fs =>
        cases off with
        | zero => rfl
        | succ off => rfl
    unfold Impl.takePart
    by_cases hle : offset + len ≤ p.len.toNat
    · rw [if_pos hle, if_pos (by omega)]
      cases hc : Impl.collect off len frags with
      | none =>
        have := hiff.mp hc
        omega
      | some gs =>
        refine .returns ⟨?_, hroom⟩
        have := collect_length hc
        change gs.length ≤ n₁.allocatedFrags
        omega
    · rw [if_neg hle]
      split
      · rw [hiff.mpr (by omega)]
        exact .fails _
      · exact .fails _

/-! ## The operations -/

/-- The packet all of which is linearized. -/
def Op.linearized : Op → Option Nat
  | .linearize i => some i
  | _ => none

namespace Pool

/-- The bytes of a packet. -/
def sizeAt (s : Pool) (i : Nat) : Nat :=
  match s.packets[i]? with
  | some (some p) => sizes p.frags
  | _ => 0

/-- The bytes of the packet that the operation makes longer, or makes from other bytes. -/
def made (s : Pool) : Op → Nat
  | .ofFragment bs => bs.length
  | .ofFrags fs => fragsLen fs
  | .appendFragment i bs => s.sizeAt i + bs.length
  | .prependFragment i bs => s.sizeAt i + bs.length
  | .prependHeader i bs => s.sizeAt i + bs.length
  | .append i j => s.sizeAt i + s.sizeAt j
  | _ => 0

/-- `_len` can count the bytes, and a packet without bytes that is linearized has a place for one
more fragment. -/
def Countable (s : Pool) (o : Op) : Prop :=
  s.made o < 2 ^ 32 ∧ ∀ i ∈ o.linearized, ∀ p ∈ s.packets[i]?.join,
    p.len = 0 → p.frags.length < p.allocatedFrags

instance (s : Pool) (o : Op) : Decidable (Countable s o) :=
  inferInstanceAs (Decidable (_ ∧ ∀ i ∈ o.linearized, ∀ p ∈ s.packets[i]?.join,
    p.len = 0 → p.frags.length < p.allocatedFrags))

/-- The fragments of the packets are these byte strings, and `_len` is the sum of their sizes. -/
structure Reads (s : Pool) (v : Strings) : Prop where
  strings : s.packets.map (Option.map (Impl.bytes s.mem)) = v
  counted : ∀ p, some p ∈ s.packets → p.len.toNat = sizes p.frags

/-- `_len` cannot count `2 ^ 32` bytes. -/
theorem Reads.sizes_lt (h : Reads s v) (hp : some p ∈ s.packets) : sizes p.frags < 2 ^ 32 :=
  h.counted p hp ▸ p.len.toNat_lt

end Pool

end Seastar.Net.PacketImpl
