import Seastar.Net.PacketImplSpec

/-!
The headroom of packets. Whatever is done to packets, a first fragment in `_data` starts
at `_headroom`, unless `trim_back` shortens it: `trim_back` counts what it takes from the
end of such a fragment as headroom, which is in front of it. A header that is prepended
to that headroom is written over the wrong bytes, or in front of `_data`.
-/

namespace Seastar.Net.PacketImpl

open Lib

/-- The packet and the bytes that a `trim_back` takes from its end. -/
def Op.cutBack : Op → Option (Nat × Nat)
  | .trimBack i howMuch => some (i, howMuch)
  | _ => none

namespace Pool

variable {s t : Pool} {i j : Nat} {p : Impl} {r : Impl × Mem} {len : UInt32} {bs : Bytes}

theorem get_ok : s.get i = .ok p ↔ s.packets[i]? = some (some p) := by
  unfold get
  split
  · rename_i q hq
    rw [hq]
    simp
  · rename_i h
    exact iff_of_false nofun fun hp => h p hp

/-- Every packet of the pool is sound. -/
def AllSound (s : Pool) : Prop := ∀ i p, s.get i = .ok p → Sound s.mem p

theorem AllSound.empty : AllSound {} := by
  intro i p hp
  rw [get_ok] at hp
  cases hp

theorem AllSound.put (h : s.AllSound) (hr : Becomes s.mem len bs r) (i : Nat) :
    (s.put i r).AllSound := by
  intro j p hp
  rw [get_ok, Pool.put, List.getElem?_set] at hp
  split at hp
  · split at hp
    · obtain rfl := Option.some.inj (Option.some.inj hp)
      exact hr.sound
    · cases hp
  · exact (h j p (get_ok.mpr hp)).mono hr.grows

theorem AllSound.add (h : s.AllSound) (hr : Becomes s.mem len bs r) : (s.add r).AllSound := by
  intro j p hp
  rw [get_ok] at hp
  rcases List.mem_append.mp (List.mem_of_getElem? hp) with hm | hm
  · obtain ⟨k, hk⟩ := List.getElem?_of_mem hm
    exact (h k p (get_ok.mpr hk)).mono hr.grows
  · obtain rfl := Option.some.inj (List.mem_singleton.mp hm)
    exact hr.sound

/-- A packet that was moved away or destroyed takes nothing from the others. -/
theorem AllSound.drop (h : s.AllSound) (i : Nat) :
    AllSound { s with packets := s.packets.set i none } := by
  intro j p hp
  rw [get_ok, List.getElem?_set] at hp
  split at hp
  · split at hp
    · cases Option.some.inj hp
    · cases hp
  · exact h j p (get_ok.mpr hp)

/-- `trim_back` takes nothing from a first fragment that is in `_data`. -/
def Fits (s : Pool) (o : Op) : Prop :=
  ∀ c ∈ o.cutBack, ∀ p ∈ s.packets[c.1]?.join, KeepsFirst p c.2

instance (s : Pool) (o : Op) : Decidable (Fits s o) :=
  inferInstanceAs (Decidable (∀ c ∈ o.cutBack, ∀ p ∈ s.packets[c.1]?.join, KeepsFirst p c.2))

theorem Fits.keepsFirst {howMuch : Nat} (h : Fits s (.trimBack i howMuch)) (hp : s.get i = .ok p) :
    KeepsFirst p howMuch := by
  refine h (i, howMuch) rfl p ?_
  rw [get_ok.mp hp]
  rfl

/-- No operation but `trim_back` moves the headroom away from the first fragment. -/
theorem step_allSound {o : Op} (h : s.AllSound) (hk : Fits s o) (hs : s.step o = .ok t) :
    t.AllSound := by
  cases o with
  | empty nrFrags =>
    obtain ⟨p, hp, hs⟩ := bind_ok.mp hs
    obtain rfl := Except.ok.inj hs
    exact h.add ((allocate_becomes s.mem nrFrags).of_ok hp)
  | ofFragment bs =>
    obtain rfl := Except.ok.inj hs
    exact h.add (ofFragment_becomes s.mem bs)
  | ofFrags fs =>
    obtain ⟨r, hr, hs⟩ := bind_ok.mp hs
    obtain rfl := Except.ok.inj hs
    exact h.add ((ofFrags_becomes s.mem fs).of_ok hr)
  | appendFragment i bs =>
    obtain ⟨p, hp, hs⟩ := bind_ok.mp hs
    obtain ⟨r, hr, hs⟩ := bind_ok.mp hs
    obtain rfl := Except.ok.inj hs
    exact h.put (((h i p hp).appendFragment bs).of_ok hr) i
  | prependFragment i bs =>
    obtain ⟨p, hp, hs⟩ := bind_ok.mp hs
    obtain ⟨r, hr, hs⟩ := bind_ok.mp hs
    obtain rfl := Except.ok.inj hs
    exact h.put (((h i p hp).prependFragment bs).of_ok hr).1 i
  | prependHeader i bs =>
    obtain ⟨p, hp, hs⟩ := bind_ok.mp hs
    obtain ⟨r, hr, hs⟩ := bind_ok.mp hs
    obtain rfl := Except.ok.inj hs
    exact h.put (((h i p hp).prependHeader bs).of_ok hr).1 i
  | append i j =>
    obtain ⟨p, hp, hs⟩ := bind_ok.mp hs
    obtain ⟨q, hq, hs⟩ := bind_ok.mp hs
    obtain ⟨r, hr, hs⟩ := bind_ok.mp hs
    obtain rfl := Except.ok.inj hs
    have hsound := h i p hp
    have hsound' : Sound s.mem q := h.drop i j q hq
    obtain ⟨hmove, hjoin⟩ := (hsound.append hsound').of_ok hr
    by_cases h0 : p.len = 0
    · obtain rfl := hmove h0
      exact (h.drop j).put (Copied.refl hsound').becomes i
    · exact (h.drop j).put (hjoin h0) i
  | trimFront i howMuch =>
    obtain ⟨p, hp, hs⟩ := bind_ok.mp hs
    obtain ⟨q, hq, hs⟩ := bind_ok.mp hs
    obtain rfl := Except.ok.inj hs
    have hsound := ((h i p hp).trimFront hq).1
    exact h.put (Copied.refl hsound).becomes i
  | trimBack i howMuch =>
    obtain ⟨p, hp, hs⟩ := bind_ok.mp hs
    obtain ⟨q, hq, hs⟩ := bind_ok.mp hs
    obtain rfl := Except.ok.inj hs
    have hsound := ((h i p hp).trimBack (hk.keepsFirst hp) hq).1
    exact h.put (Copied.refl hsound).becomes i
  | getHeader i offset size =>
    obtain ⟨p, hp, hs⟩ := bind_ok.mp hs
    obtain ⟨⟨o, r⟩, hr, hs⟩ := bind_ok.mp hs
    obtain rfl := Except.ok.inj hs
    exact h.put ((h i p hp).getHeader hr) i
  | linearize i =>
    obtain ⟨p, hp, hs⟩ := bind_ok.mp hs
    obtain ⟨r, hr, hs⟩ := bind_ok.mp hs
    obtain rfl := Except.ok.inj hs
    exact h.put ((h i p hp).linearizeAt hr) i
  | share i offset len =>
    obtain ⟨p, hp, hs⟩ := bind_ok.mp hs
    obtain ⟨⟨n, r⟩, hr, hs⟩ := bind_ok.mp hs
    obtain rfl := Except.ok.inj hs
    obtain ⟨hold, hnew⟩ := (h i p hp).share hr
    exact (h.put hold i).add (Copied.refl hnew.sound).becomes
  | reserve i nFrags =>
    obtain ⟨p, hp, hs⟩ := bind_ok.mp hs
    obtain ⟨q, hq, hs⟩ := bind_ok.mp hs
    obtain rfl := Except.ok.inj hs
    exact h.put (((h i p hp).reserve nFrags).of_ok hq) i
  | freeOnCpu i =>
    obtain ⟨p, hp, hs⟩ := bind_ok.mp hs
    obtain ⟨q, hq, hs⟩ := bind_ok.mp hs
    obtain rfl := Except.ok.inj hs
    exact h.put (((h i p hp).copy p.frags.length).of_ok hq).becomes i
  | reset i =>
    obtain rfl := Except.ok.inj hs
    exact h.drop i

end Pool

/-- A first fragment in `_data` starts at `_data + _headroom`. -/
def AtHeadroom (p : Impl) : Prop :=
  p.usingInternalData = true → ∃ size fs, p.frags = ⟨.data, p.headroom, size⟩ :: fs

/-- `bs` is put in front of the packet `p`, and is written in `_data`, directly in front of the
first byte. -/
def WritesInside (mem : Mem) (p : Impl) (bs : Bytes) : Except Fault (Impl × Mem) → Prop :=
  Returns fun r => Prepended mem p bs r ∧ Inside mem p bs r

theorem Sound.atHeadroom {mem : Mem} {p : Impl} (h : Sound mem p) : AtHeadroom p := by
  intro hu
  obtain ⟨off, size, fs, hp, hoff, -⟩ := h.using_data hu
  exact ⟨size, fs, by rw [hoff, hp]⟩

namespace Pool

/-- After operations that take nothing at the end of a first fragment in `_data`, every such
fragment starts at `_headroom`, and a header that fits the headroom is written right in front of
the packet. -/
theorem run_headroom {s : Pool} {os : List Op} (hk : Along Fits {} os) (hr : run {} os = .ok s)
    {i : Nat} {p : Impl} (hp : s.get i = .ok p) :
    AtHeadroom p ∧ ∀ bs : Bytes, bs.length ≤ p.headroom →
      WritesInside s.mem p bs (p.prependFragment s.mem bs) ∧
      WritesInside s.mem p bs (p.prependHeader s.mem bs) := by
  have hall : s.AllSound :=
    Run.run_inv (fun _ _ _ h hk' hs => step_allSound h hk' hs) AllSound.empty hk hr
  have hsound := hall i p hp
  refine ⟨hsound.atHeadroom, fun bs hle => ⟨?_, ?_⟩⟩
  · exact (hsound.prependFragment bs).mono fun r hr => ⟨hr.1, hr.2 hle⟩
  · exact (hsound.prependHeader bs).mono fun r hr => ⟨hr.1, hr.2 hle⟩

/-- A header of 20 bytes. -/
def header : Bytes := List.replicate 20 1

/-- A packet with its last bytes in a buffer. -/
def behindBuffer : List Op :=
  [.ofFragment (List.replicate 40 2), .appendFragment 0 (List.replicate 46 3), .trimBack 0 20]

/-- A `trim_back` of the buffer leaves the headroom as it is. -/
theorem run_behindBuffer : ∃ s p, run {} behindBuffer = .ok s ∧ s.get 0 = .ok p ∧
    AtHeadroom p ∧ WritesInside s.mem p header (p.prependHeader s.mem header) := by
  refine ⟨_, _, rfl, rfl, ?_⟩
  obtain ⟨hat, hwrites⟩ :=
    @run_headroom _ behindBuffer (by decide) rfl 0 _ rfl
  exact ⟨hat, (hwrites header (by decide)).2⟩

/-- A packet of 108 bytes in `_data`, and 50 of them are trimmed: four bytes are free in front of
it, its headroom is 54, and the header begins in front of `_data`. -/
theorem trimBack_headroom : ∃ s p,
    run {} [.ofFragment (List.replicate 108 2), .trimBack 0 50] = .ok s ∧ s.get 0 = .ok p ∧
    ¬ AtHeadroom p ∧ header.length ≤ p.headroom ∧
    p.prependHeader s.mem header = .error .outOfBounds := by
  refine ⟨_, _, rfl, rfl, ?_, by decide, rfl⟩
  intro h
  obtain ⟨size, fs, hfs⟩ := h rfl
  cases hfs

end Pool

end Seastar.Net.PacketImpl
