import Mathlib.Data.List.DropRight

/-!
`expiring_fifo` of `core/expiring_fifo.hh`: a queue whose elements may time out.
An element that timed out keeps its place, without a payload, until it is in
front. What counts is the list of elements that are left, `live`: every
operation is described by what it does to that list.
-/

namespace Seastar

variable {T : Type}

/-- `expiring_fifo::entry`; without a payload it is expired, and only an armed timer
expires. The key stands for the address of the entry. -/
structure ExpiringFifo.Entry (T : Type) where
  key : Nat
  payload : Option T
  armed : Bool
  deriving DecidableEq, Repr

/-- `class expiring_fifo`. -/
structure ExpiringFifo (T : Type) where
  list : List (ExpiringFifo.Entry T) := []
  size : Nat := 0
  /-- history: the number of elements ever pushed, and the next key -/
  pushed : Nat := 0
  deriving DecidableEq, Repr

namespace ExpiringFifo

/-- `drop_expired_front`. -/
def dropExpiredFront (l : List (Entry T)) : List (Entry T) := l.dropWhile fun e => e.payload.isNone

/-- `empty`. -/
def empty (f : ExpiringFifo T) : Bool := f.size = 0

/-- `front`. -/
def front (f : ExpiringFifo T) : Option T := f.list.head?.bind Entry.payload

/-- `push_back`; the timer is armed unless the timeout is `time_point::max()`. -/
def pushBack (payload : T) (armed : Bool) (f : ExpiringFifo T) : ExpiringFifo T where
  list := f.list ++ [⟨f.pushed, some payload, armed⟩]
  size := f.size + 1
  pushed := f.pushed + 1

/-- `pop_front`. -/
def popFront (f : ExpiringFifo T) : ExpiringFifo T :=
  { f with list := dropExpiredFront f.list.tail, size := f.size - 1 }

/-- The payload of the entry with a given key, if its timer can expire. -/
def expiring (key : Nat) (f : ExpiringFifo T) : Option T :=
  (f.list.find? fun e => e.key = key && e.armed).bind Entry.payload

/-- The callback of the timer of an entry, after `_on_expiry`. -/
def expire (key : Nat) (f : ExpiringFifo T) : ExpiringFifo T :=
  { f with
    list := dropExpiredFront (f.list.map fun e => if e.key = key then { e with payload := none } else e)
    size := f.size - 1 }

/-! ## The elements that are left -/

/-- The elements that are not expired, with their keys. -/
def live (f : ExpiringFifo T) : List (Nat × T) :=
  f.list.filterMap fun e => e.payload.map fun x => (e.key, x)

/-- The front element is never expired, the size counts the elements that are left, and the
keys tell the order of the pushes. -/
structure WF (f : ExpiringFifo T) : Prop where
  front : ∀ e ∈ f.list.head?, e.payload.isSome
  size : f.size = f.live.length
  keys : f.list.Pairwise fun a b => a.key < b.key
  pushed : ∀ e ∈ f.list, e.key < f.pushed

variable {f : ExpiringFifo T}

theorem WF.initial : ({} : ExpiringFifo T).WF := by
  refine ⟨?_, rfl, List.Pairwise.nil, ?_⟩
  · exact nofun
  · exact nofun

theorem live_dropExpiredFront (l : List (Entry T)) :
    (dropExpiredFront l).filterMap (fun e => e.payload.map fun x => (e.key, x)) =
      l.filterMap fun e => e.payload.map fun x => (e.key, x) := by
  induction l with
  | nil => rfl
  | cons e l ih =>
    rw [dropExpiredFront, List.dropWhile_cons]
    cases h : e.payload with
    | none =>
      simp only [Option.isNone_none, if_true, List.filterMap_cons, h, Option.map_none]
      exact ih
    | some x => simp

theorem head_dropExpiredFront (l : List (Entry T)) :
    ∀ e ∈ (dropExpiredFront l).head?, e.payload.isSome := by
  intro e he
  have h := List.head?_dropWhile_not (fun e : Entry T => e.payload.isNone) l
  rw [dropExpiredFront] at he
  rw [Option.mem_def.mp he] at h
  simpa using h

theorem dropExpiredFront_sublist (l : List (Entry T)) : (dropExpiredFront l).Sublist l :=
  List.dropWhile_sublist _

theorem WF.empty_iff (h : f.WF) : f.empty = true ↔ f.live = [] := by
  rw [empty, decide_eq_true_eq, h.size, List.length_eq_zero_iff]

theorem WF.front_eq (h : f.WF) : f.front = f.live.head?.map Prod.snd := by
  have hf := h.front
  unfold ExpiringFifo.front live
  generalize f.list = l at hf ⊢
  rcases l with _ | ⟨e, l⟩
  · rfl
  · obtain ⟨x, hx⟩ := Option.isSome_iff_exists.mp (hf e rfl)
    simp [hx]

@[simp] theorem live_pushBack (x : T) (armed : Bool) :
    (f.pushBack x armed).live = f.live ++ [(f.pushed, x)] := by
  simp [live, pushBack]

theorem WF.pushBack (h : f.WF) (x : T) (armed : Bool) : (f.pushBack x armed).WF where
  front e he := by
    rcases hl : f.list with _ | ⟨d, l⟩
    · rw [ExpiringFifo.pushBack, hl] at he
      simp only [List.nil_append, List.head?_cons, Option.mem_def, Option.some.injEq] at he
      rw [← he]
      rfl
    · refine h.front e ?_
      rw [ExpiringFifo.pushBack, hl] at he
      rw [hl]
      exact he
  size := by
    rw [live_pushBack, List.length_append, ← h.size]
    rfl
  keys := by
    refine List.pairwise_append.mpr ⟨h.keys, List.pairwise_singleton _ _, fun a ha b hb => ?_⟩
    rw [List.mem_singleton.mp hb]
    exact h.pushed a ha
  pushed e he := by
    show e.key < f.pushed + 1
    rcases List.mem_append.mp he with he | he
    · have := h.pushed e he
      omega
    · rw [List.mem_singleton.mp he]
      exact Nat.lt_succ_self _

theorem WF.live_popFront (h : f.WF) : f.popFront.live = f.live.tail := by
  have hf := h.front
  unfold live popFront
  rw [live_dropExpiredFront]
  generalize f.list = l at hf ⊢
  rcases l with _ | ⟨e, l⟩
  · rfl
  · obtain ⟨x, hx⟩ := Option.isSome_iff_exists.mp (hf e rfl)
    simp [hx]

theorem WF.popFront (h : f.WF) : f.popFront.WF where
  front := head_dropExpiredFront _
  size := by
    rw [h.live_popFront, List.length_tail, ← h.size]
    rfl
  keys := h.keys.sublist ((dropExpiredFront_sublist _).trans (List.tail_sublist _))
  pushed e he := h.pushed e (((dropExpiredFront_sublist _).trans (List.tail_sublist _)).subset he)

/-- The keys of the elements that are left, in the order of the pushes. -/
theorem WF.live_keys (h : f.WF) : f.live.Pairwise fun a b => a.1 < b.1 := by
  refine List.Pairwise.filterMap _ ?_ h.keys
  intro a b hab x hx y hy
  obtain ⟨u, -, rfl⟩ := Option.map_eq_some_iff.mp hx
  obtain ⟨v, -, rfl⟩ := Option.map_eq_some_iff.mp hy
  exact hab

/-- Expiry takes out one element. -/
theorem live_expire (key : Nat) : (f.expire key).live = f.live.filter fun e => e.1 ≠ key := by
  unfold live expire
  rw [live_dropExpiredFront]
  induction f.list with
  | nil => rfl
  | cons e l ih =>
    rw [List.map_cons, List.filterMap_cons, List.filterMap_cons]
    by_cases hk : e.key = key
    · rw [if_pos hk]
      cases hp : e.payload with
      | none => simpa [hp] using ih
      | some x => simpa [hp, hk] using ih
    · rw [if_neg hk]
      cases hp : e.payload with
      | none => simpa [hp] using ih
      | some x => simpa [hp, hk] using ih

theorem mem_live_of_expiring {key : Nat} {x : T} (h : f.expiring key = some x) :
    (key, x) ∈ f.live := by
  obtain ⟨e, he, hx⟩ := Option.bind_eq_some_iff.mp h
  have hk := List.find?_some he
  simp only [Bool.and_eq_true, decide_eq_true_eq] at hk
  refine List.mem_filterMap.mpr ⟨e, List.mem_of_find?_eq_some he, ?_⟩
  rw [hx, ← hk.1]
  rfl

/-- An element that expires is one of those left. -/
theorem WF.perm_expire (h : f.WF) {key : Nat} {x : T}
    (hx : f.expiring key = some x) : ((key, x) :: (f.expire key).live).Perm f.live := by
  obtain ⟨l₁, l₂, hl⟩ := List.append_of_mem (mem_live_of_expiring hx)
  have hk := h.live_keys
  rw [hl, List.pairwise_append, List.pairwise_cons] at hk
  have h₁ : l₁.filter (fun e => e.1 ≠ key) = l₁ := by
    apply List.filter_eq_self.mpr
    intro e he
    exact decide_eq_true (Nat.ne_of_lt (hk.2.2 e he _ List.mem_cons_self))
  have h₂ : l₂.filter (fun e => e.1 ≠ key) = l₂ := by
    apply List.filter_eq_self.mpr
    intro e he
    exact decide_eq_true (Nat.ne_of_gt (hk.2.1.1 e he))
  rw [live_expire, hl, List.filter_append, List.filter_cons, h₁, h₂]
  simp only [ne_eq, not_true_eq_false, decide_false, Bool.false_eq_true, if_false]
  exact List.perm_middle.symm

theorem WF.expire (h : f.WF) {key : Nat} {x : T} (hx : f.expiring key = some x) :
    (f.expire key).WF where
  front := head_dropExpiredFront _
  size := by
    have hlen := (h.perm_expire hx).length_eq
    rw [List.length_cons, ← h.size] at hlen
    show f.size - 1 = _
    omega
  keys := by
    refine List.Pairwise.sublist (dropExpiredFront_sublist _) ?_
    rw [List.pairwise_map]
    refine h.keys.imp fun {a b} hab => ?_
    have hkey : ∀ e : Entry T, (if e.key = key then { e with payload := none } else e).key = e.key := by
      intro e
      split <;> rfl
    rw [hkey, hkey]
    exact hab
  pushed e he := by
    obtain ⟨d, hd, rfl⟩ := List.mem_map.mp ((dropExpiredFront_sublist _).subset he)
    have := h.pushed d hd
    split <;> exact this

end ExpiringFifo

end Seastar
