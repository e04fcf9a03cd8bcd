import Seastar.Core.Queue
import Seastar.Lib.Assoc

/-!
`ipv4_udp` of `net/ip.hh` and `net/udp.cc`: the channels by port, the choice of an anonymous port,
and the datagrams that reach a channel.
-/

namespace Seastar.Net

open Lib

variable {δ : Type}

/-- `default_queue_size`. -/
def defaultQueueSize : Nat := 1024

/-- `min_anonymous_port`. -/
def minAnonymousPort : UInt16 := 32768

/-- `ipv4_udp`, without the packets on their way out. -/
structure Ipv4Udp (δ : Type) where
  channels : List (UInt16 × Queue δ) := []
  queueSize : Nat := defaultQueueSize
  nextAnonymousPort : UInt16 := minAnonymousPort
  deriving DecidableEq, Repr

/-- What `make_channel` throws. -/
inductive ChannelError
  | bindingToSpecificIp
  | addressAlreadyInUse
  | noFreePort
  deriving DecidableEq, Repr

namespace Ipv4Udp

/-- `next_port`. The addition is one of `int`s. -/
def nextPort (port : UInt16) : UInt16 :=
  if port.toNat + 1 = 0 then minAnonymousPort else .ofNat (port.toNat + 1)

theorem nextPort_eq (port : UInt16) : nextPort port = port + 1 := by
  rw [nextPort, if_neg (Nat.succ_ne_zero _), ← UInt16.toNat_inj]
  simp

/-- `_channels.count(port)`. -/
def count (u : Ipv4Udp δ) (port : UInt16) : Bool := (u.channels.lookup port).isSome

/-- How far `port` is ahead of `start` for a counter that is stepped up. -/
def ahead (start port : UInt16) : Nat := (port - start).toNat

theorem ahead_inj {start p q : UInt16} : ahead start p = ahead start q ↔ p = q := by
  rw [ahead, ahead, UInt16.toNat_inj]
  constructor
  · intro h
    simpa using congrArg (· + start) h
  · intro h
    rw [h]

theorem ahead_succ {start port : UInt16} (h : port + 1 ≠ start) :
    ahead start (port + 1) = ahead start port + 1 := by
  have hne : (port + 1).toNat ≠ start.toNat := fun heq => h (UInt16.toNat_inj.mp heq)
  have hp := port.toNat_lt
  have hs := start.toNat_lt
  simp only [ahead, UInt16.toNat_sub, UInt16.toNat_add] at hne ⊢
  simp at hne ⊢
  omega

theorem ahead_lt (start port : UInt16) : ahead start port < 65536 := (port - start).toNat_lt

/-- The port that the counter comes to last. -/
theorem ahead_last (start port : UInt16) (h : start = port + 1) : ahead start port = 65535 := by
  subst h
  have hp := port.toNat_lt
  simp only [ahead, UInt16.toNat_sub, UInt16.toNat_add]
  simp
  omega

/-- The loop of `make_channel` over the counter, which throws when it is back at `starting`. -/
def findPort (used : UInt16 → Bool) (starting port : UInt16) : Option UInt16 :=
  if used port then
    if starting = nextPort port then none else findPort used starting (nextPort port)
  else some port
  termination_by 65536 - ahead starting port
  decreasing_by
    rename_i h
    rw [nextPort_eq] at h ⊢
    have := ahead_lt starting port
    rw [ahead_succ (Ne.symm h)]
    omega

/-- `make_channel`: the port of the new channel. When it throws the counter is where it was. -/
def makeChannel (u : Ipv4Udp δ) (ip : UInt32) (port : UInt16) :
    Except ChannelError (UInt16 × Ipv4Udp δ) :=
  if ip ≠ 0 then .error .bindingToSpecificIp
  else if port ≠ 0 then
    if u.count port then .error .addressAlreadyInUse
    else .ok (port, { u with channels := u.channels ++ [(port, { max := u.queueSize })] })
  else
    match findPort u.count u.nextAnonymousPort u.nextAnonymousPort with
    | none => .error .noFreePort
    | some port =>
      .ok (port,
        { u with
          channels := u.channels ++ [(port, { max := u.queueSize })]
          nextAnonymousPort := nextPort port })

/-- The search takes the first unused port ahead of the counter, and gives up when there is none. -/
theorem findPort_spec (used : UInt16 → Bool) (starting port : UInt16)
    (h : ∀ q, ahead starting q < ahead starting port → used q) :
    match findPort used starting port with
    | none => ∀ q, used q
    | some p => used p = false ∧ ∀ q, ahead starting q < ahead starting p → used q := by
  induction port using findPort.induct used starting with
  | case1 port hused hback =>
    rw [findPort, if_pos hused, if_pos hback]
    intro q
    rw [nextPort_eq] at hback
    have hlast := ahead_last starting port hback
    have hq := ahead_lt starting q
    rcases Nat.lt_or_eq_of_le (by omega : ahead starting q ≤ ahead starting port) with hlt | heq
    · exact h q hlt
    · rw [ahead_inj.mp heq]
      exact hused
  | case2 port hused hback ih =>
    rw [findPort, if_pos hused, if_neg hback]
    apply ih
    rw [nextPort_eq] at hback ⊢
    intro q hq
    rw [ahead_succ (Ne.symm hback)] at hq
    rcases Nat.lt_succ_iff_lt_or_eq.mp hq with hlt | heq
    · exact h q hlt
    · rw [ahead_inj.mp heq]
      exact hused
  | case3 port hfree =>
    rw [findPort, if_neg hfree]
    exact ⟨by simpa using hfree, h⟩

/-- No channel is registered at the port. -/
def Unused (u : Ipv4Udp δ) (port : UInt16) : Prop := u.channels.lookup port = none

instance (u : Ipv4Udp δ) (port : UInt16) : Decidable (u.Unused port) :=
  inferInstanceAs (Decidable (u.channels.lookup port = none))

theorem count_eq_false {u : Ipv4Udp δ} {port : UInt16} : u.count port = false ↔ u.Unused port := by
  simp [count, Unused]

theorem count_eq_true {u : Ipv4Udp δ} {port : UInt16} : u.count port = true ↔ ¬ u.Unused port := by
  rw [← count_eq_false, Bool.not_eq_false]

/-- With port 0 the channel is registered at the first unused port ahead of the counter, and
`make_channel` throws only when none of the 65536 ports is unused. -/
theorem makeChannel_anonymous (u : Ipv4Udp δ) :
    (u.makeChannel 0 0 = .error .noFreePort ∧ ∀ q, ¬ u.Unused q) ∨
    ∃ p, u.makeChannel 0 0 = .ok (p,
        { u with
          channels := u.channels ++ [(p, { max := u.queueSize })]
          nextAnonymousPort := nextPort p }) ∧
      u.Unused p ∧
      ∀ q, ahead u.nextAnonymousPort q < ahead u.nextAnonymousPort p → ¬ u.Unused q := by
  have hspec := findPort_spec u.count u.nextAnonymousPort u.nextAnonymousPort (by
    intro q hq
    simp [ahead] at hq)
  cases hfind : findPort u.count u.nextAnonymousPort u.nextAnonymousPort with
  | none =>
    rw [hfind] at hspec
    exact .inl ⟨by simp [makeChannel, hfind], fun q => count_eq_true.mp (hspec q)⟩
  | some p =>
    rw [hfind] at hspec
    obtain ⟨hp, hbefore⟩ := hspec
    exact .inr ⟨p, by simp [makeChannel, hfind], count_eq_false.mp hp,
      fun q hq => count_eq_true.mp (hbefore q hq)⟩

/-- A channel for port 0 is registered at an unused port from `min_anonymous_port` up, or else all of
these ports are in use and `make_channel` throws. -/
def AnonymousChannel (u : Ipv4Udp δ) : Prop :=
  (∃ p u', u.makeChannel 0 0 = .ok (p, u') ∧ u.Unused p ∧ minAnonymousPort ≤ p ∧
    u'.channels = u.channels ++ [(p, { max := u.queueSize })]) ∨
  (u.makeChannel 0 0 = .error .noFreePort ∧ ∀ p, minAnonymousPort ≤ p → ¬ u.Unused p)

/-- This is so if and only if the counter meets an unused port from `min_anonymous_port` up before
it meets an unused port below. -/
theorem anonymousChannel_iff (u : Ipv4Udp δ) :
    AnonymousChannel u ↔
      ∀ p, p < minAnonymousPort → u.Unused p →
        ∃ q, minAnonymousPort ≤ q ∧ u.Unused q ∧
          ahead u.nextAnonymousPort q < ahead u.nextAnonymousPort p := by
  rcases makeChannel_anonymous u with ⟨hmake, hnone⟩ | ⟨p, hmake, hp, hbefore⟩
  · constructor
    · intro _ q _ hq
      exact absurd hq (hnone q)
    · intro _
      exact .inr ⟨hmake, fun q _ => hnone q⟩
  · constructor
    · rintro (⟨p', u', hok, -, hmin, -⟩ | ⟨herr, -⟩)
      · rw [hmake] at hok
        obtain ⟨rfl, -⟩ := Prod.mk.inj (Except.ok.inj hok)
        intro q hlow hq
        refine ⟨p, hmin, hp, ?_⟩
        have hle := Nat.le_of_not_lt fun hlt => hbefore q hlt hq
        apply Nat.lt_of_le_of_ne hle
        intro heq
        rw [ahead_inj.mp heq] at hmin
        exact absurd hlow (UInt16.not_lt.mpr hmin)
      · rw [hmake] at herr
        cases herr
    · intro hall
      refine .inl ⟨p, _, hmake, hp, ?_, rfl⟩
      apply UInt16.not_lt.mp
      intro hlow
      obtain ⟨q, -, hq, hlt⟩ := hall p hlow hp
      exact hbefore q hlt hq

/-- The counter at 65535 and a channel there: the next port is 0. -/
theorem makeChannel_zero : ¬ ∀ u : Ipv4Udp Unit, AnonymousChannel u := by
  intro h
  have hmake : makeChannel (δ := Unit)
      { channels := [(65535, { max := 1024 })], nextAnonymousPort := 65535 } 0 0 =
        .ok (0, { channels := [(65535, { max := 1024 }), (0, { max := 1024 })]
                  nextAnonymousPort := 1 }) := by
    simp [makeChannel, findPort, count, nextPort, defaultQueueSize]
  rcases h { channels := [(65535, { max := 1024 })], nextAnonymousPort := 65535 } with
    ⟨p, u', hok, -, hmin, -⟩ | ⟨herr, -⟩
  · rw [hmake] at hok
    obtain ⟨rfl, -⟩ := Prod.mk.inj (Except.ok.inj hok)
    exact absurd hmin (by decide)
  · rw [hmake] at herr
    cases herr

end Ipv4Udp

end Seastar.Net
