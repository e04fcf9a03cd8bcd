import Seastar.Core.Timers
import Seastar.Lib.Keyed

/-!
What the callbacks of timers can rely on. The flags of a timer say where its link is, every arming
ends in one way, and a call of `complete_timers` leaves no timer behind that was due. Each change
takes a timer out of its list first, so the invariant comes with a timer that is left out of it.
-/

namespace Seastar

open Lib

/-! ## The link of a timer that is moved -/

namespace TimerSet

variable {s : TimerSet} {src dst : Nat} {t : Timer}

theorem mem_swapNodes (hdst : ∀ t, Mem t s → t.id ≠ dst) :
    Mem t (s.swapNodes src dst) ↔
      (t.id = dst ∧ Mem ⟨src, t.timeout⟩ s) ∨ (t.id ≠ src ∧ t.id ≠ dst ∧ Mem t s) := by
  constructor
  · rintro ⟨i, hi, ht⟩
    obtain ⟨u, hu, rfl⟩ := List.mem_map.mp ht
    by_cases hsrc : u.id = src
    · rw [if_pos hsrc]
      exact Or.inl ⟨rfl, i, hi, hsrc ▸ hu⟩
    · rw [if_neg hsrc]
      exact Or.inr ⟨hsrc, hdst u ⟨i, hi, hu⟩, i, hi, hu⟩
  · rintro (⟨hid, i, hi, hu⟩ | ⟨hsrc, -, i, hi, hu⟩)
    · refine ⟨i, hi, List.mem_map.mpr ⟨_, hu, ?_⟩⟩
      rw [if_pos rfl, ← hid]
    · exact ⟨i, hi, List.mem_map.mpr ⟨t, hu, if_neg hsrc⟩⟩

theorem WellFormed.swapNodes (h : s.WellFormed) (hdst : ∀ t, Mem t s → t.id ≠ dst) :
    (s.swapNodes src dst).WellFormed where
  last_nonneg := h.last_nonneg
  placed := by
    intro i t ht
    obtain ⟨u, hu, rfl⟩ := List.mem_map.mp ht
    rw [← h.placed hu]
    split <;> rfl
  marked i := by
    rw [show (s.swapNodes src dst).nonEmpty i = s.nonEmpty i from rfl, h.marked i]
    show _ ↔ (s.buckets i).map _ ≠ []
    rw [ne_eq, ne_eq, List.map_eq_nil_iff]
  nodup i := by
    refine (h.nodup i).map_on ?_
    intro u hu u' hu' heq
    have hne := hdst u (h.mem_of_bucket hu)
    have hne' := hdst u' (h.mem_of_bucket hu')
    obtain ⟨id, timeout⟩ := u
    obtain ⟨id', timeout'⟩ := u'
    dsimp only at hne hne' heq
    split at heq <;> split at heq <;> simp_all
  next_le := by
    intro i t ht
    obtain ⟨u, hu, rfl⟩ := List.mem_map.mp ht
    have := h.next_le hu
    split <;> exact this

end TimerSet

namespace Timers

variable {κ : Type} {r r' : Timers κ} {busy : Option Nat} {id : Nat} {o : Object κ} {n : Nat}

theorem put_objects (id i : Nat) (x : Option (Object κ)) (r : Timers κ) :
    (r.put id x).objects i = if i = id then x else r.objects i := by
  simp only [put, Function.update_apply]

/-! ## The invariant -/

/-- A timer is queued when it is in the set or the list, `_expired` says in which; `busy` is not in
them. -/
structure Linked (busy : Option Nat) (r : Timers κ) : Prop where
  set : r.timers.WellFormed
  mem : ∀ t, TimerSet.Mem t r.timers ↔ some t.id ≠ busy ∧ ∃ o, r.objects t.id = some o ∧
    o.queued = true ∧ o.expired = false ∧ o.expiry = t.timeout
  expired : ∀ id, id ∈ r.expiredTimers ↔ some id ≠ busy ∧ ∃ o, r.objects id = some o ∧
    o.queued = true ∧ o.expired = true
  nodup : r.expiredTimers.Nodup
  armed : ∀ id o, some id ≠ busy → r.objects id = some o → o.armed = o.queued

/-- An arming is over, in one way, or its timer is armed. -/
structure Accounted (busy : Option Nat) (r : Timers κ) : Prop where
  pending : ∀ id o, some id ≠ busy → r.objects id = some o → o.armed = true →
    ∃ n, o.arming = some n ∧ r.armings[n]? = some o.expiry ∧ n ∉ r.ran ∧ n ∉ r.ended
  unique : ∀ id id' o o' n, some id ≠ busy → some id' ≠ busy → r.objects id = some o →
    r.objects id' = some o' → o.armed = true → o'.armed = true → o.arming = some n →
    o'.arming = some n → id = id'
  covered : ∀ n, n < r.armings.length → n ∈ r.ran ∨ n ∈ r.ended ∨
    ∃ id o, some id ≠ busy ∧ r.objects id = some o ∧ o.armed = true ∧ o.arming = some n
  unarmed : ∀ id o n, some id ≠ busy → r.objects id = some o → o.armed = false → o.arming = some n →
    n ∈ r.ran ∨ n ∈ r.ended
  nodup : r.ran.Nodup
  apart : ∀ n ∈ r.ended, n < r.armings.length ∧ n ∉ r.ran
  due : ∀ c ∈ r.calls, ∃ expiry, r.armings[c.arming]? = some expiry ∧ expiry ≤ c.time

/-- The timers that the last call of `complete_timers` has found to be due are those of the list. -/
structure Timely (busy : Option Nat) (r : Timers κ) : Prop where
  last_le : r.timers.last ≤ r.now
  before_le : r.before ≤ r.armings.length
  found : ∀ id o n, some id ≠ busy → r.objects id = some o → o.armed = true → o.arming = some n →
    n < r.before → id ∈ r.expiredTimers ∨ r.timers.last < o.expiry
  due : ∀ id o, id ∈ r.expiredTimers → r.objects id = some o → o.expiry ≤ r.timers.last

/-- The invariant, but for a timer that is being changed. -/
structure Inv (busy : Option Nat) (r : Timers κ) : Prop where
  linked : r.Linked busy
  accounted : r.Accounted busy
  timely : r.Timely busy

/-! ## A timer is taken out -/

/-- A timer that is not armed is in no list. -/
theorem Inv.unarmed (h : r.Inv none) (harmed : ∀ o ∈ r.objects id, o.armed = false) :
    r.Inv (some id) := by
  have hne : ∀ i o, r.objects i = some o → o.armed = true → some i ≠ some id := by
    rintro i o ho ha heq
    obtain rfl := Option.some.inj heq
    exact absurd (ha.symm.trans (harmed o ho)) (by decide)
  refine ⟨⟨h.linked.set, fun t => ?_, fun i => ?_, h.linked.nodup, fun i o _ => ?_⟩,
    ⟨fun i o _ => ?_, ?_, fun n hn => ?_, fun i o n _ => ?_, h.accounted.nodup, h.accounted.apart,
      h.accounted.due⟩,
    ⟨h.timely.last_le, h.timely.before_le, fun i o n _ => ?_, h.timely.due⟩⟩
  · rw [h.linked.mem]
    refine and_congr_left fun ⟨o, ho, hq, _⟩ => iff_of_true (by simp) ?_
    exact hne t.id o ho ((h.linked.armed _ o (by simp) ho).trans hq)
  · rw [h.linked.expired]
    refine and_congr_left fun ⟨o, ho, hq, _⟩ => iff_of_true (by simp) ?_
    exact hne i o ho ((h.linked.armed _ o (by simp) ho).trans hq)
  · exact h.linked.armed i o (by simp)
  · exact h.accounted.pending i o (by simp)
  · intro i i' o o' n _ _
    exact h.accounted.unique i i' o o' n (by simp) (by simp)
  · rcases h.accounted.covered n hn with hr | he | ⟨i, o, -, ho, ha, har⟩
    · exact Or.inl hr
    · exact Or.inr (Or.inl he)
    · exact Or.inr (Or.inr ⟨i, o, hne i o ho ha, ho, ha, har⟩)
  · exact h.accounted.unarmed i o n (by simp)
  · exact h.timely.found i o n (by simp)

/-- The arming of a timer is over. -/
theorem Accounted.finish (h : r.Accounted none) (ho : r.objects id = some o) (harmed : o.armed = true)
    (hn : o.arming = some n) (hobjects : r'.objects = r.objects) (harmings : r'.armings = r.armings)
    (hover : ∀ m, m ∈ r'.ran ∨ m ∈ r'.ended ↔ (m ∈ r.ran ∨ m ∈ r.ended) ∨ m = n)
    (hnodup : r'.ran.Nodup) (hapart : ∀ m ∈ r'.ended, m < r.armings.length ∧ m ∉ r'.ran)
    (hdue : ∀ c ∈ r'.calls, ∃ expiry, r.armings[c.arming]? = some expiry ∧ expiry ≤ c.time) :
    r'.Accounted (some id) where
  pending i x hi hx ha := by
    rw [hobjects] at hx
    obtain ⟨m, hm, hexp, hran, hended⟩ := h.pending i x (by simp) hx ha
    refine ⟨m, hm, harmings ▸ hexp, ?_⟩
    rw [← not_or, hover, not_or]
    refine ⟨not_or.mpr ⟨hran, hended⟩, ?_⟩
    rintro rfl
    exact hi (congrArg some (h.unique i id x o m (by simp) (by simp) hx ho ha harmed hm hn))
  unique i i' x x' m _ _ hx hx' := by
    rw [hobjects] at hx hx'
    exact h.unique i i' x x' m (by simp) (by simp) hx hx'
  covered m hm := by
    rw [harmings] at hm
    rw [← or_assoc, hover, hobjects]
    rcases h.covered m hm with hr | he | ⟨i, x, -, hx, ha, har⟩
    · exact Or.inl (Or.inl (Or.inl hr))
    · exact Or.inl (Or.inl (Or.inr he))
    · by_cases hi : i = id
      · subst hi
        obtain rfl := Option.some.inj (ho.symm.trans hx)
        exact Or.inl (Or.inr (Option.some.inj (har.symm.trans hn)))
      · exact Or.inr ⟨i, x, fun heq => hi (Option.some.inj heq), hx, ha, har⟩
  unarmed i x m _ hx ha hm := by
    rw [hobjects] at hx
    exact (hover m).mpr (Or.inl (h.unarmed i x m (by simp) hx ha hm))
  nodup := hnodup
  apart := by
    rw [harmings]
    exact hapart
  due := by
    rw [harmings]
    exact hdue

theorem Accounted.end (h : r.Accounted none) (ho : r.objects id = some o) (harmed : o.armed = true)
    (hobjects : r'.objects = r.objects) (harmings : r'.armings = r.armings)
    (hcalls : r'.calls = r.calls) (hended : r'.ended = r.ended ++ o.arming.toList) :
    r'.Accounted (some id) := by
  obtain ⟨n, hn, hexp, hran, -⟩ := h.pending id o (by simp) ho harmed
  have hran' : r'.ran = r.ran := congrArg (List.map Call.arming) hcalls
  rw [hn] at hended
  refine h.finish ho harmed hn hobjects harmings ?_ (hran' ▸ h.nodup) ?_ (hcalls ▸ h.due)
  · intro m
    rw [hran', hended, Option.toList_some, List.mem_append, List.mem_singleton, or_assoc]
  · intro m hm
    rw [hran']
    rw [hended, Option.toList_some, List.mem_append, List.mem_singleton] at hm
    rcases hm with hm | rfl
    · exact h.apart m hm
    · exact ⟨(List.getElem?_eq_some_iff.mp hexp).1, hran⟩

/-- The link of a timer is taken out of the set or the list. -/
theorem Linked.delTimer (h : r.Linked none) (ho : r.objects id = some o) :
    (r.delTimer id o).2.Linked (some id) := by
  have hset : ∀ t, TimerSet.Mem t r.timers ∧ t ≠ ⟨id, o.expiry⟩ ↔
      some t.id ≠ some id ∧ ∃ x, r.objects t.id = some x ∧ x.queued = true ∧ x.expired = false ∧
        x.expiry = t.timeout := by
    intro t
    rw [h.mem]
    constructor
    · rintro ⟨⟨-, x, hx, hxq, hxe, hxt⟩, hne⟩
      refine ⟨?_, x, hx, hxq, hxe, hxt⟩
      intro heq
      obtain ⟨i, timeout⟩ := t
      obtain rfl : i = id := Option.some.inj heq
      obtain rfl := Option.some.inj (ho.symm.trans hx)
      exact hne (by rw [hxt])
    · rintro ⟨hne, x, hx⟩
      refine ⟨⟨by simp, x, hx⟩, ?_⟩
      rintro rfl
      exact hne rfl
  rw [Timers.delTimer]
  by_cases he : o.expired = true
  · rw [if_pos he]
    have hnot : ∀ t, TimerSet.Mem t r.timers → t ≠ ⟨id, o.expiry⟩ := by
      rintro t ht rfl
      obtain ⟨-, x, hx, -, hxe, -⟩ := (h.mem _).mp ht
      obtain rfl := Option.some.inj (ho.symm.trans hx)
      exact absurd (he.symm.trans hxe) (by decide)
    refine ⟨h.set, fun t => ?_, fun i => ?_, h.nodup.erase id, fun i x _ => h.armed i x (by simp)⟩
    · rw [← hset t]
      exact ⟨fun ht => ⟨ht, hnot t ht⟩, fun ht => ht.1⟩
    · show i ∈ r.expiredTimers.erase id ↔ _
      rw [h.nodup.mem_erase_iff, h.expired]
      simp
  · rw [if_neg he]
    refine ⟨h.set.remove _, fun t => ?_, fun i => ?_, h.nodup, fun i x _ => h.armed i x (by simp)⟩
    · rw [h.set.mem_remove]
      exact hset t
    · show i ∈ r.expiredTimers ↔ _
      rw [h.expired]
      refine and_congr_left fun ⟨x, hx, _, hxe⟩ => iff_of_true (by simp) ?_
      rintro heq
      obtain rfl := Option.some.inj heq
      obtain rfl := Option.some.inj (ho.symm.trans hx)
      exact he hxe

theorem Timely.delTimer (h : r.Timely none) (id : Nat) (o : Object κ) :
    (r.delTimer id o).2.Timely (some id) := by
  rw [Timers.delTimer]
  split
  · refine ⟨h.last_le, h.before_le, fun i x n hi hx ha hn hlt => ?_, fun i x hi => ?_⟩
    · refine (h.found i x n (by simp) hx ha hn hlt).imp_left fun hmem => ?_
      exact (List.mem_erase_of_ne fun heq => hi (congrArg some heq)).mpr hmem
    · exact h.due i x (List.mem_of_mem_erase hi)
  · exact ⟨h.last_le, h.before_le, fun i x n _ => h.found i x n (by simp), h.due⟩

/-! ## The timer is put back -/

/-- A timer that is in no list is not armed. -/
theorem Inv.put (h : r.Inv (some id)) {x : Option (Object κ)}
    (hx : ∀ o ∈ x, o.armed = false ∧ o.queued = false ∧
      ∀ n ∈ o.arming, n ∈ r.ran ∨ n ∈ r.ended) : (r.put id x).Inv none := by
  have hother : ∀ i o, (r.put id x).objects i = some o → (o.armed = true ∨ o.queued = true) →
      some i ≠ some id ∧ r.objects i = some o := by
    intro i o ho ha
    rw [put_objects] at ho
    split at ho
    · obtain ⟨h₁, h₂, -⟩ := hx o ho
      rw [h₁, h₂] at ha
      simp at ha
    · rename_i hi
      exact ⟨fun heq => hi (Option.some.inj heq), ho⟩
  have hback : ∀ i o, some i ≠ some id → r.objects i = some o → (r.put id x).objects i = some o := by
    intro i o hi ho
    rw [put_objects, if_neg fun heq => hi (congrArg some heq)]
    exact ho
  refine ⟨⟨h.linked.set, fun t => ?_, fun i => ?_, h.linked.nodup, fun i o _ ho => ?_⟩,
    ⟨fun i o _ ho ha => ?_, fun i i' o o' n _ _ ho ho' ha ha' => ?_, fun n hn => ?_,
      fun i o n _ ho ha hn => ?_, h.accounted.nodup, h.accounted.apart, h.accounted.due⟩,
    ⟨h.timely.last_le, h.timely.before_le, fun i o n _ ho ha => ?_, fun i o hi ho => ?_⟩⟩
  · refine (h.linked.mem t).trans ⟨?_, ?_⟩
    · rintro ⟨hi, o, ho, hrest⟩
      exact ⟨by simp, o, hback t.id o hi ho, hrest⟩
    · rintro ⟨-, o, ho, hq, hrest⟩
      obtain ⟨hi, ho⟩ := hother t.id o ho (Or.inr hq)
      exact ⟨hi, o, ho, hq, hrest⟩
  · refine (h.linked.expired i).trans ⟨?_, ?_⟩
    · rintro ⟨hi, o, ho, hrest⟩
      exact ⟨by simp, o, hback i o hi ho, hrest⟩
    · rintro ⟨-, o, ho, hq, hrest⟩
      obtain ⟨hi, ho⟩ := hother i o ho (Or.inr hq)
      exact ⟨hi, o, ho, hq, hrest⟩
  · by_cases hi : i = id
    · rw [put_objects, if_pos hi] at ho
      obtain ⟨h₁, h₂, -⟩ := hx o ho
      rw [h₁, h₂]
    · rw [put_objects, if_neg hi] at ho
      exact h.linked.armed i o (fun heq => hi (Option.some.inj heq)) ho
  · obtain ⟨hi, ho⟩ := hother i o ho (Or.inl ha)
    exact h.accounted.pending i o hi ho ha
  · obtain ⟨hi, ho⟩ := hother i o ho (Or.inl ha)
    obtain ⟨hi', ho'⟩ := hother i' o' ho' (Or.inl ha')
    exact h.accounted.unique i i' o o' n hi hi' ho ho' ha ha'
  · refine (h.accounted.covered n hn).imp_right (Or.imp_right ?_)
    rintro ⟨i, o, hi, ho, hrest⟩
    exact ⟨i, o, by simp, hback i o hi ho, hrest⟩
  · by_cases hi : i = id
    · rw [put_objects, if_pos hi] at ho
      exact (hx o ho).2.2 n hn
    · rw [put_objects, if_neg hi] at ho
      exact h.accounted.unarmed i o n (fun heq => hi (Option.some.inj heq)) ho ha hn
  · obtain ⟨hi, ho⟩ := hother i o ho (Or.inl ha)
    exact h.timely.found i o n hi ho ha
  · have hne := ((h.linked.expired i).mp hi).1
    rw [put_objects, if_neg fun heq => hne (congrArg some heq)] at ho
    exact h.timely.due i o hi ho

/-- A timer is armed. -/
theorem Inv.queueTimer (h : r.Inv (some id)) (o : Object κ) (expiry : Int64)
    (period : Option Int64) : (r.queueTimer id o expiry period).Inv none := by
  let x : Object κ := { o with
    period, armed := true, expired := false, expiry, queued := true,
    arming := some r.armings.length }
  have hobjects : ∀ i, (r.queueTimer id o expiry period).objects i =
      if i = id then some x else r.objects i := fun i => put_objects id i (some x) r
  have hself : (r.queueTimer id o expiry period).objects id = some x := by
    rw [hobjects, if_pos rfl]
  have hback : ∀ i o', some i ≠ some id →
      ((r.queueTimer id o expiry period).objects i = some o' ↔ r.objects i = some o') := by
    intro i o' hi
    rw [hobjects, if_neg fun heq => hi (congrArg some heq)]
  have hcases : ∀ i o', (r.queueTimer id o expiry period).objects i = some o' →
      (i = id ∧ o' = x) ∨ (some i ≠ some id ∧ r.objects i = some o') := by
    intro i o' ho'
    by_cases hi : i = id
    · subst hi
      exact Or.inl ⟨rfl, (Option.some.inj (hself.symm.trans ho')).symm⟩
    · have hne : some i ≠ some id := fun heq => hi (Option.some.inj heq)
      exact Or.inr ⟨hne, (hback i o' hne).mp ho'⟩
  have hnew : ¬ TimerSet.Mem ⟨id, expiry⟩ r.timers := fun hmem => ((h.linked.mem _).mp hmem).1 rfl
  have hlt : ∀ n, n ∈ r.ran ∨ n ∈ r.ended → n < r.armings.length := by
    rintro n (hn | hn)
    · obtain ⟨c, hc, rfl⟩ := List.mem_map.mp hn
      obtain ⟨e, he, -⟩ := h.accounted.due c hc
      exact (List.getElem?_eq_some_iff.mp he).1
    · exact (h.accounted.apart n hn).1
  have hkept : ∀ {n : Nat} {e : Int64}, r.armings[n]? = some e → (r.armings ++ [expiry])[n]? = some e := by
    intro n e he
    rw [List.getElem?_append_left (List.getElem?_eq_some_iff.mp he).1]
    exact he
  refine ⟨⟨h.linked.set.insert hnew, fun t => ?_, fun i => ?_, h.linked.nodup, fun i o' _ ho' => ?_⟩,
    ⟨fun i o' _ ho' ha => ?_, fun i i' o' o'' n _ _ ho' ho'' ha ha' har har' => ?_, fun n hn => ?_,
      fun i o' n _ ho' ha hn => ?_, h.accounted.nodup, fun n hn => ?_, fun c hc => ?_⟩,
    ⟨?_, ?_, fun i o' n _ ho' ha har hlt' => ?_, fun i o' hi ho' => ?_⟩⟩
  · show TimerSet.Mem t (r.timers.insert ⟨id, expiry⟩).2 ↔ _
    rw [TimerSet.mem_insert, h.linked.mem]
    constructor
    · rintro (rfl | ⟨hi, o', ho', hrest⟩)
      · exact ⟨by simp, x, hself, rfl, rfl, rfl⟩
      · exact ⟨by simp, o', (hback t.id o' hi).mpr ho', hrest⟩
    · rintro ⟨-, o', ho', hq, he, ht⟩
      rcases hcases t.id o' ho' with ⟨hi, rfl⟩ | ⟨hi, ho'⟩
      · refine Or.inl ?_
        obtain ⟨i, timeout⟩ := t
        obtain rfl : i = id := hi
        exact congrArg (Timer.mk i) ht.symm
      · exact Or.inr ⟨hi, o', ho', hq, he, ht⟩
  · show i ∈ r.expiredTimers ↔ _
    rw [h.linked.expired]
    constructor
    · rintro ⟨hi, o', ho', hrest⟩
      exact ⟨by simp, o', (hback i o' hi).mpr ho', hrest⟩
    · rintro ⟨-, o', ho', hq, he⟩
      rcases hcases i o' ho' with ⟨-, rfl⟩ | ⟨hi, ho'⟩
      · cases he
      · exact ⟨hi, o', ho', hq, he⟩
  · rcases hcases i o' ho' with ⟨-, rfl⟩ | ⟨hi, ho'⟩
    · rfl
    · exact h.linked.armed i o' hi ho'
  · rcases hcases i o' ho' with ⟨-, rfl⟩ | ⟨hi, ho'⟩
    · refine ⟨r.armings.length, rfl, List.getElem?_concat_length, ?_⟩
      rw [← not_or]
      exact fun hn => Nat.lt_irrefl _ (hlt _ hn)
    · obtain ⟨n, hn, he, hrest⟩ := h.accounted.pending i o' hi ho' ha
      exact ⟨n, hn, hkept he, hrest⟩
  · have hold : ∀ i o', some i ≠ some id → r.objects i = some o' → o'.armed = true →
        o'.arming ≠ some r.armings.length := by
      intro i o' hi ho' ha hlen
      obtain ⟨n, hn, he, -⟩ := h.accounted.pending i o' hi ho' ha
      obtain rfl := Option.some.inj (hn.symm.trans hlen)
      exact Nat.lt_irrefl _ (List.getElem?_eq_some_iff.mp he).1
    rcases hcases i o' ho' with ⟨hi, rfl⟩ | ⟨hi, ho'⟩
    · rcases hcases i' o'' ho'' with ⟨hi', -⟩ | ⟨hi', ho''⟩
      · exact hi.trans hi'.symm
      · exact absurd (har'.trans har.symm) (hold i' o'' hi' ho'' ha')
    · rcases hcases i' o'' ho'' with ⟨hi', rfl⟩ | ⟨hi', ho''⟩
      · exact absurd (har.trans har'.symm) (hold i o' hi ho' ha)
      · exact h.accounted.unique i i' o' o'' n hi hi' ho' ho'' ha ha' har har'
  · replace hn : n < (r.armings ++ [expiry]).length := hn
    rw [List.length_append, List.length_singleton] at hn
    by_cases hlast : n = r.armings.length
    · exact Or.inr (Or.inr ⟨id, x, by simp, hself, rfl, hlast ▸ rfl⟩)
    · refine (h.accounted.covered n (by omega)).imp_right (Or.imp_right ?_)
      rintro ⟨i, o', hi, ho', hrest⟩
      exact ⟨i, o', by simp, (hback i o' hi).mpr ho', hrest⟩
  · rcases hcases i o' ho' with ⟨-, rfl⟩ | ⟨hi, ho'⟩
    · cases ha
    · exact h.accounted.unarmed i o' n hi ho' ha hn
  · obtain ⟨hn, hran⟩ := h.accounted.apart n hn
    refine ⟨?_, hran⟩
    show n < (r.armings ++ [expiry]).length
    rw [List.length_append]
    exact Nat.lt_add_right _ hn
  · obtain ⟨e, he, hle⟩ := h.accounted.due c hc
    exact ⟨e, hkept he, hle⟩
  · show (r.timers.insert ⟨id, expiry⟩).2.last ≤ r.now
    rw [TimerSet.insert_last]
    exact h.timely.last_le
  · show r.before ≤ (r.armings ++ [expiry]).length
    rw [List.length_append]
    exact Nat.le_add_right_of_le h.timely.before_le
  · show i ∈ r.expiredTimers ∨ (r.timers.insert ⟨id, expiry⟩).2.last < o'.expiry
    rw [TimerSet.insert_last]
    rcases hcases i o' ho' with ⟨-, rfl⟩ | ⟨hi, ho'⟩
    · obtain rfl := Option.some.inj har
      exact absurd hlt' (Nat.not_lt.mpr h.timely.before_le)
    · exact h.timely.found i o' n hi ho' ha har hlt'
  · show o'.expiry ≤ (r.timers.insert ⟨id, expiry⟩).2.last
    rw [TimerSet.insert_last]
    exact h.timely.due i o' hi ((hback i o' ((h.linked.expired i).mp hi).1).mp ho')

/-! ## The operations -/

/-- The walk over the expired timers is not affected. -/
structure Aside (r r' : Timers κ) : Prop where
  control : r'.control = r.control
  idle : r.expiredTimers = [] → r'.expiredTimers = []

theorem Aside.refl (r : Timers κ) : Aside r r := ⟨rfl, fun h => h⟩

theorem Aside.trans {r'' : Timers κ} (h : Aside r r') (h' : Aside r' r'') : Aside r r'' :=
  ⟨h'.control.trans h.control, fun hr => h'.idle (h.idle hr)⟩

theorem delTimer_rest (id : Nat) (o : Object κ) (r : Timers κ) :
    (r.delTimer id o).2.objects = r.objects ∧ (r.delTimer id o).2.armings = r.armings ∧
      (r.delTimer id o).2.calls = r.calls ∧ (r.delTimer id o).2.ended = r.ended ∧
      Aside r (r.delTimer id o).2 := by
  rw [delTimer]
  split
  · refine ⟨rfl, rfl, rfl, rfl, rfl, fun h => ?_⟩
    show r.expiredTimers.erase id = []
    rw [h, List.erase_nil]
  · exact ⟨rfl, rfl, rfl, rfl, rfl, fun h => h⟩

/-- Ending the arming of a timer takes its link out. -/
theorem Inv.unlink (h : r.Inv none) (ho : r.objects id = some o) (harmed : o.armed = true) :
    Inv (some id) ({ r with ended := r.ended ++ o.arming.toList }.delTimer id o).2 := by
  obtain ⟨hobjects, harmings, hcalls, hended, -⟩ :=
    delTimer_rest id o { r with ended := r.ended ++ o.arming.toList }
  have hlinked : Linked none { r with ended := r.ended ++ o.arming.toList } :=
    ⟨h.linked.set, h.linked.mem, h.linked.expired, h.linked.nodup, h.linked.armed⟩
  have htimely : Timely none { r with ended := r.ended ++ o.arming.toList } :=
    ⟨h.timely.last_le, h.timely.before_le, h.timely.found, h.timely.due⟩
  exact ⟨hlinked.delTimer ho, h.accounted.end ho harmed hobjects harmings hcalls hended,
    htimely.delTimer id o⟩

/-- `cancel` of a timer that is armed. -/
theorem Inv.cancel_armed (h : r.Inv none) (ho : r.objects id = some o) (harmed : o.armed = true) :
    ∃ x : Object κ, (x.armed = false ∧ x.queued = false ∧ x.arming = o.arming) ∧ r.cancel id =
      (true, ({ r with ended := r.ended ++ o.arming.toList }.delTimer id o).2.put id (some x)) := by
  have hq : o.queued = true := (h.linked.armed id o (by simp) ho).symm.trans harmed
  by_cases he : o.expired = true
  · refine ⟨{ o with armed := false, queued := false, expired := false }, ⟨rfl, rfl, rfl⟩, ?_⟩
    simp only [cancel, ho, harmed, hq, he, delTimer, Bool.not_true, Bool.false_eq_true, if_false,
      if_true]
  · refine ⟨{ o with armed := false, queued := false }, ⟨rfl, rfl, rfl⟩, ?_⟩
    simp only [cancel, ho, harmed, hq, he, delTimer, Bool.not_true, Bool.false_eq_true, if_false,
      if_true]

theorem cancel_unarmed (h : ∀ o ∈ r.objects id, o.armed = false) : r.cancel id = (false, r) := by
  rw [cancel]
  cases ho : r.objects id with
  | none => rfl
  | some o =>
    have := h o ho
    simp only [this, Bool.not_false, if_true]

/-- `cancel` says whether the timer was armed; then it is not. -/
theorem Inv.cancel (h : r.Inv none) (id : Nat) :
    (r.cancel id).2.Inv none ∧ Aside r (r.cancel id).2 ∧
      ((r.cancel id).1 = true ↔ ∃ o, r.objects id = some o ∧ o.armed = true) ∧
      (∀ o ∈ (r.cancel id).2.objects id, o.armed = false) ∧
      (∀ o ∈ r.objects id, o.armed = true →
        (r.cancel id).2.ended = r.ended ++ o.arming.toList) := by
  by_cases harmed : ∃ o, r.objects id = some o ∧ o.armed = true
  · obtain ⟨o, ho, ha⟩ := harmed
    obtain ⟨x, ⟨hxa, hxq, hxn⟩, hcancel⟩ := h.cancel_armed ho ha
    obtain ⟨-, -, -, hended, haside⟩ :=
      delTimer_rest id o { r with ended := r.ended ++ o.arming.toList }
    rw [hcancel]
    refine ⟨(h.unlink ho ha).put ?_, ⟨haside.control, haside.idle⟩, iff_of_true rfl ⟨o, ho, ha⟩, ?_, ?_⟩
    · intro y hy
      obtain rfl := Option.some.inj hy
      refine ⟨hxa, hxq, fun n hn => Or.inr ?_⟩
      rw [hended, ← hxn, hn]
      exact List.mem_append_right _ (List.mem_singleton_self n)
    · intro y hy
      rw [put_objects, if_pos rfl] at hy
      obtain rfl := Option.some.inj hy
      exact hxa
    · intro y hy _
      obtain rfl := Option.some.inj (ho.symm.trans hy)
      exact hended
  · have hnot : ∀ o ∈ r.objects id, o.armed = false := fun o ho =>
      Bool.not_eq_true _ ▸ fun ha => harmed ⟨o, ho, ha⟩
    rw [cancel_unarmed hnot]
    refine ⟨h, .refl r, ?_, hnot, fun o ho ha => absurd ⟨o, ho, ha⟩ harmed⟩
    simp only [Bool.false_eq_true, harmed]

/-- `arm` of a timer that is not armed. -/
theorem Inv.arm (h : r.Inv none) (hnot : ∀ o ∈ r.objects id, o.armed = false) (expiry : Int64)
    (period : Option Int64) :
    ∃ r', r.arm id expiry period = .ok r' ∧ r'.Inv none ∧ Aside r r' := by
  rw [Timers.arm]
  cases ho : r.objects id with
  | none => exact ⟨r, rfl, h, .refl r⟩
  | some o =>
    dsimp only
    rw [if_neg (by rw [hnot o ho]; decide)]
    exact ⟨_, rfl, (h.unarmed hnot).queueTimer o expiry period, rfl, fun hnil => hnil⟩

theorem Inv.destroy (h : r.Inv none) (id : Nat) :
    (r.destroy id).Inv none ∧ Aside r (r.destroy id) := by
  rw [Timers.destroy]
  cases ho : r.objects id with
  | none => exact ⟨h, .refl r⟩
  | some o =>
    have hqueued := h.linked.armed id o (by simp) ho
    by_cases ha : o.armed = true
    · have hq := hqueued.symm.trans ha
      have hinv := (h.unlink ho ha).put (x := none) (fun _ hx => absurd hx (by simp))
      have hsame : { (r.delTimer id o).2.put id none with ended := r.ended ++ o.arming.toList } =
          ({ r with ended := r.ended ++ o.arming.toList }.delTimer id o).2.put id none := by
        by_cases he : o.expired = true <;> simp only [delTimer, he, if_true] <;> rfl
      obtain ⟨-, -, -, hended, haside⟩ := delTimer_rest id o r
      simp only [hq, ha, if_true, hended]
      exact ⟨hsame ▸ hinv, haside.control, haside.idle⟩
    · have hnot : ∀ x ∈ r.objects id, x.armed = false := by
        intro x hx
        obtain rfl := Option.some.inj (ho.symm.trans hx)
        exact Bool.not_eq_true _ ▸ ha
      have hq : ¬ o.queued = true := fun hq => ha (hqueued.trans hq)
      have hinv := (h.unarmed hnot).put (x := none) (fun _ hx => absurd hx (by simp))
      simp only [hq, ha]
      exact ⟨hinv, rfl, fun hnil => hnil⟩

/-- The move constructor puts the new timer in the place of the old one. -/
theorem Inv.move (h : r.Inv none) (src dst : Nat) :
    (r.move src dst).Inv none ∧ Aside r (r.move src dst) := by
  rw [Timers.move]
  cases hsrc : r.objects src with
  | none => exact ⟨h, .refl r⟩
  | some o =>
    cases hdst : r.objects dst with
    | some o' => exact ⟨h, .refl r⟩
    | none =>
      have hne : dst ≠ src := by
        rintro rfl
        cases hsrc.symm.trans hdst
      let x : Object κ := { o with callback := none, queued := false, armed := false, arming := none }
      let r' : Timers κ := { (r.put dst (some o)).put src (some x) with
        timers := r.timers.swapNodes src dst
        expiredTimers := r.expiredTimers.map fun id => if id = src then dst else id }
      have hobjects : ∀ i, r'.objects i =
          if i = src then some x else if i = dst then some o else r.objects i := by
        intro i
        show ((r.put dst (some o)).put src (some x)).objects i = _
        rw [put_objects, put_objects]
      -- the timers of the new state, where they were, and back
      have hfwd : ∀ i o', r.objects i = some o' →
          r'.objects (if i = src then dst else i) = some o' := by
        intro i o' ho'
        by_cases hi : i = src
        · subst hi
          rw [if_pos rfl, hobjects, if_neg hne, if_pos rfl, ← hsrc, ho']
        · have hi' : i ≠ dst := by
            rintro rfl
            cases hdst.symm.trans ho'
          rw [if_neg hi, hobjects, if_neg hi, if_neg hi', ho']
      have hback : ∀ i o', r'.objects i = some o' → (o'.armed = true ∨ o'.queued = true) →
          ∃ j, r.objects j = some o' ∧ (if j = src then dst else j) = i := by
        intro i o' ho' ha
        rw [hobjects] at ho'
        by_cases hi : i = src
        · rw [if_pos hi] at ho'
          obtain rfl := Option.some.inj ho'
          rcases ha with ha | ha <;> cases ha
        · rw [if_neg hi] at ho'
          by_cases hi' : i = dst
          · rw [if_pos hi'] at ho'
            exact ⟨src, hsrc.trans ho', (if_pos rfl).trans hi'.symm⟩
          · rw [if_neg hi'] at ho'
            exact ⟨i, ho', if_neg hi⟩
      have hinj : ∀ i j, r.objects i ≠ none → r.objects j ≠ none →
          (if i = src then dst else i) = (if j = src then dst else j) → i = j := by
        intro i j hi hj heq
        have hi' : i ≠ dst := fun hd => hi (hd ▸ hdst)
        have hj' : j ≠ dst := fun hd => hj (hd ▸ hdst)
        split at heq <;> split at heq <;> simp_all
      have hin : ∀ t, TimerSet.Mem t r.timers → r.objects t.id ≠ none := by
        intro t ht hnone
        obtain ⟨-, o', ho', -⟩ := (h.linked.mem t).mp ht
        cases hnone.symm.trans ho'
      have hlist : ∀ id ∈ r.expiredTimers, r.objects id ≠ none := by
        intro id hid hnone
        obtain ⟨-, o', ho', -⟩ := (h.linked.expired id).mp hid
        cases hnone.symm.trans ho'
      have hmem : ∀ t, TimerSet.Mem t r'.timers ↔
          ∃ u, TimerSet.Mem u r.timers ∧ (if u.id = src then dst else u.id) = t.id ∧
            u.timeout = t.timeout := by
        intro t
        have hfresh : ∀ t, TimerSet.Mem t r.timers → t.id ≠ dst :=
          fun t ht hd => hin t ht (hd ▸ hdst)
        refine (TimerSet.mem_swapNodes hfresh).trans ⟨?_, ?_⟩
        · rintro (⟨hid, hu⟩ | ⟨hs, -, hu⟩)
          · exact ⟨_, hu, (if_pos rfl).trans hid.symm, rfl⟩
          · exact ⟨t, hu, if_neg hs, rfl⟩
        · rintro ⟨⟨i, timeout⟩, hu, hid, rfl⟩
          dsimp only at hid
          split at hid
          · rename_i hi
            exact Or.inl ⟨hid.symm, hi ▸ hu⟩
          · rename_i hi
            obtain ⟨j, timeout⟩ := t
            dsimp only at hid hu ⊢
            subst hid
            exact Or.inr ⟨hi, hfresh _ hu, hu⟩
      have hexpired : ∀ i, i ∈ r'.expiredTimers ↔
          ∃ j ∈ r.expiredTimers, (if j = src then dst else j) = i := fun i => List.mem_map
      have hdrop : ∀ t, TimerSet.Mem t r.timers → t.id ≠ dst := fun t ht hd => hin t ht (hd ▸ hdst)
      refine ⟨⟨⟨h.linked.set.swapNodes hdrop, fun t => ?_, fun i => ?_, ?_, fun i o' _ ho' => ?_⟩,
        ⟨fun i o' _ ho' ha => ?_, fun i i' o' o'' n _ _ ho' ho'' ha ha' hn hn' => ?_, fun n hn => ?_,
          fun i o' n _ ho' ha hn => ?_, h.accounted.nodup, h.accounted.apart, h.accounted.due⟩,
        ⟨h.timely.last_le, h.timely.before_le, fun i o' n _ ho' ha hn hlt => ?_,
          fun i o' hi ho' => ?_⟩⟩, rfl, fun hnil => by simp [hnil]⟩
      · rw [hmem]
        constructor
        · rintro ⟨u, hu, hid, ht⟩
          obtain ⟨-, o', ho', hq, he, hexp⟩ := (h.linked.mem u).mp hu
          exact ⟨by simp, o', hid ▸ hfwd u.id o' ho', hq, he, hexp.trans ht⟩
        · rintro ⟨-, o', ho', hq, he, hexp⟩
          obtain ⟨j, hj, hji⟩ := hback t.id o' ho' (Or.inr hq)
          exact ⟨⟨j, t.timeout⟩, (h.linked.mem _).mpr ⟨by simp, o', hj, hq, he, hexp⟩, hji, rfl⟩
      · rw [hexpired]
        constructor
        · rintro ⟨j, hj, rfl⟩
          obtain ⟨-, o', ho', hq, he⟩ := (h.linked.expired j).mp hj
          exact ⟨by simp, o', hfwd j o' ho', hq, he⟩
        · rintro ⟨-, o', ho', hq, he⟩
          obtain ⟨j, hj, hji⟩ := hback i o' ho' (Or.inr hq)
          exact ⟨j, (h.linked.expired j).mpr ⟨by simp, o', hj, hq, he⟩, hji⟩
      · refine h.linked.nodup.map_on fun i hi j hj heq => ?_
        exact hinj i j (hlist i hi) (hlist j hj) heq
      · by_cases ha : o'.armed = true ∨ o'.queued = true
        · obtain ⟨j, hj, -⟩ := hback i o' ho' ha
          exact h.linked.armed j o' (by simp) hj
        · obtain ⟨h₁, h₂⟩ := not_or.mp ha
          rw [(Bool.not_eq_true _).mp h₁, (Bool.not_eq_true _).mp h₂]
      · obtain ⟨j, hj, -⟩ := hback i o' ho' (Or.inl ha)
        exact h.accounted.pending j o' (by simp) hj ha
      · obtain ⟨j, hj, rfl⟩ := hback i o' ho' (Or.inl ha)
        obtain ⟨k, hk, rfl⟩ := hback i' o'' ho'' (Or.inl ha')
        rw [h.accounted.unique j k o' o'' n (by simp) (by simp) hj hk ha ha' hn hn']
      · refine (h.accounted.covered n hn).imp_right (Or.imp_right ?_)
        rintro ⟨i, o', -, ho', hrest⟩
        exact ⟨_, o', by simp, hfwd i o' ho', hrest⟩
      · rw [hobjects] at ho'
        split at ho'
        · obtain rfl := Option.some.inj ho'
          cases hn
        · split at ho'
          · exact h.accounted.unarmed src o' n (by simp) (hsrc.trans ho') ha hn
          · exact h.accounted.unarmed i o' n (by simp) ho' ha hn
      · obtain ⟨j, hj, rfl⟩ := hback i o' ho' (Or.inl ha)
        refine (h.timely.found j o' n (by simp) hj ha hn hlt).imp_left fun hin => ?_
        exact (hexpired _).mpr ⟨j, hin, rfl⟩
      · obtain ⟨j, hj, rfl⟩ := (hexpired i).mp hi
        obtain ⟨-, o'', ho'', -⟩ := (h.linked.expired j).mp hj
        obtain rfl := Option.some.inj ((hfwd j o'' ho'').symm.trans ho')
        exact h.timely.due j o'' hj ho''

/-! ## `complete_timers` -/

/-- The front of the list of expired timers is popped and its callback called. -/
theorem Inv.pop {ids : List Nat} (h : r.Inv none) (hids : r.expiredTimers = id :: ids)
    (ho : r.objects id = some o) (harmed : o.armed = true) (callback : Option κ) :
    Inv (some id) { r with
      expiredTimers := ids
      control := .callback
      calls := r.calls ++ o.arming.toList.map fun n => Call.mk n r.now callback } := by
  obtain ⟨n, hn, hexp, hran, hended⟩ := h.accounted.pending id o (by simp) ho harmed
  have hnodup := h.linked.nodup
  rw [hids, List.nodup_cons] at hnodup
  have hin : id ∈ r.expiredTimers := hids ▸ List.mem_cons_self
  have hmem : ∀ i, i ∈ ids ↔ some i ≠ some id ∧ i ∈ r.expiredTimers := by
    intro i
    rw [hids, List.mem_cons]
    constructor
    · intro hi
      exact ⟨fun heq => hnodup.1 (Option.some.inj heq ▸ hi), Or.inr hi⟩
    · rintro ⟨hne, hi⟩
      exact hi.resolve_left fun heq => hne (congrArg some heq)
  rw [hn]
  refine ⟨⟨h.linked.set, fun t => ?_, fun i => ?_, hnodup.2, fun i x _ => h.linked.armed i x (by simp)⟩,
    ?_, ⟨h.timely.last_le, h.timely.before_le, fun i x m hi hx ha hm hlt => ?_, fun i x hi hx => ?_⟩⟩
  · refine (h.linked.mem t).trans (and_congr_left fun ⟨x, hx, _, he, _⟩ => iff_of_true (by simp) ?_)
    intro heq
    obtain ⟨-, y, hy, -, hye⟩ := (h.linked.expired id).mp hin
    rw [Option.some.inj heq] at hx
    obtain rfl := Option.some.inj (hx.symm.trans hy)
    exact absurd (he.symm.trans hye) (by decide)
  · rw [hmem i, h.linked.expired]
    simp
  · refine h.accounted.finish ho harmed hn rfl rfl ?_ ?_ ?_ ?_
    · intro m
      show m ∈ (r.calls ++ [Call.mk n r.now callback]).map (·.arming) ∨ m ∈ r.ended ↔ _
      rw [List.map_append, List.mem_append, List.map_singleton, List.mem_singleton]
      show (m ∈ r.ran ∨ m = n) ∨ m ∈ r.ended ↔ _
      tauto
    · show ((r.calls ++ [Call.mk n r.now callback]).map (·.arming)).Nodup
      exact Keyed.nodup_snoc h.accounted.nodup fun c hc heq => hran (List.mem_map.mpr ⟨c, hc, heq⟩)
    · intro m hm
      obtain ⟨hlt, hnot⟩ := h.accounted.apart m hm
      refine ⟨hlt, ?_⟩
      show m ∉ (r.calls ++ [Call.mk n r.now callback]).map (·.arming)
      rw [List.map_append, List.mem_append, List.map_singleton, List.mem_singleton, not_or]
      exact ⟨hnot, fun heq : m = n => hended (heq ▸ hm)⟩
    · intro c hc
      rcases List.mem_append.mp hc with hc | hc
      · exact h.accounted.due c hc
      · obtain rfl := List.mem_singleton.mp hc
        exact ⟨o.expiry, hexp, Int64.le_trans (h.timely.due id o hin ho) h.timely.last_le⟩
  · exact (h.timely.found i x m (by simp) hx ha hm hlt).imp_left fun hi' => (hmem i).mpr ⟨hi, hi'⟩
  · exact h.timely.due i x ((hmem i).mp hi).2 hx

/-- The invariant, and an empty list outside of `complete_timers`. -/
structure Settled (r : Timers κ) : Prop where
  inv : r.Inv none
  idle : r.control = .idle → r.expiredTimers = []

theorem Settled.aside (h : r.Settled) (hinv : r'.Inv none) (haside : Aside r r') : r'.Settled :=
  ⟨hinv, fun hc => haside.idle (h.idle (haside.control ▸ hc))⟩

theorem Inv.nextCallback {ids : List Nat} (h : r.Inv none) (hids : r.expiredTimers = ids) :
    ∃ r', Timers.nextCallback ids r = .ok r' ∧ r'.Settled := by
  cases ids with
  | nil =>
    refine ⟨_, rfl, ⟨⟨h.linked.set, h.linked.mem, ?_, List.nodup_nil, h.linked.armed⟩,
      ⟨h.accounted.pending, h.accounted.unique, h.accounted.covered, h.accounted.unarmed,
        h.accounted.nodup, h.accounted.apart, h.accounted.due⟩, ⟨h.timely.last_le, h.timely.before_le, ?_, ?_⟩⟩,
      fun _ => rfl⟩
    · exact hids ▸ h.linked.expired
    · exact hids ▸ h.timely.found
    · exact hids ▸ h.timely.due
  | cons id ids =>
    obtain ⟨-, o, ho, hq, -⟩ := (h.linked.expired id).mp (hids ▸ List.mem_cons_self)
    have harmed : o.armed = true := (h.linked.armed id o (by simp) ho).trans hq
    have hpop := h.pop hids ho harmed o.callback
    rw [Timers.nextCallback, ho]
    dsimp only
    rw [if_pos harmed]
    cases hp : o.period with
    | none =>
      refine ⟨_, rfl, hpop.put ?_, ?_⟩
      · intro x hx
        obtain rfl := Option.some.inj hx
        refine ⟨rfl, rfl, fun n hn => Or.inl ?_⟩
        refine List.mem_map.mpr ⟨⟨n, r.now, o.callback⟩, List.mem_append_right _ ?_, rfl⟩
        rw [show o.arming = some n from hn]
        exact List.mem_singleton_self _
      · intro hc
        cases hc
    | some period =>
      refine ⟨_, rfl, hpop.queueTimer _ _ _, ?_⟩
      intro hc
      cases hc

/-- All the timers that are due are put into the list. -/
theorem Inv.expire (h : r.Inv none) (hnil : r.expiredTimers = []) :
    ∃ exp timers, r.timers.expire r.now = .ok (exp, timers) ∧
      Inv none { r with
        timers
        objects := fun id => if id ∈ exp.map (·.id) then
          (r.objects id).map fun o => { o with expired := true } else r.objects id
        expiredTimers := exp.map (·.id)
        before := r.armings.length } := by
  obtain ⟨exp, timers, hok, hexp⟩ := h.linked.set.expire h.timely.last_le
  refine ⟨exp, timers, hok, ?_⟩
  have hfresh : ∀ id o, r.objects id = some o → o.queued = true → o.expired = false := by
    intro id o ho hq
    rw [← Bool.not_eq_true]
    intro he
    have hin := (h.linked.expired id).mpr ⟨by simp, o, ho, hq, he⟩
    rw [hnil] at hin
    cases hin
  have hids : ∀ id, id ∈ exp.map (·.id) ↔
      ∃ o, r.objects id = some o ∧ o.queued = true ∧ o.expiry ≤ r.now := by
    intro id
    rw [List.mem_map]
    constructor
    · rintro ⟨t, ht, rfl⟩
      obtain ⟨hmem, hle⟩ := (hexp.expired t).mp ht
      obtain ⟨-, o, ho, hq, -, htime⟩ := (h.linked.mem t).mp hmem
      exact ⟨o, ho, hq, htime ▸ hle⟩
    · rintro ⟨o, ho, hq, hle⟩
      refine ⟨⟨id, o.expiry⟩, (hexp.expired _).mpr ⟨?_, hle⟩, rfl⟩
      exact (h.linked.mem _).mpr ⟨by simp, o, ho, hq, hfresh id o ho hq, rfl⟩
  generalize hl : exp.map (·.id) = ids at hids
  have hnodup : ids.Nodup := by
    rw [← hl]
    refine hexp.nodup.map_on fun t ht u hu heq => ?_
    obtain ⟨-, o, ho, -, -, htime⟩ := (h.linked.mem t).mp ((hexp.expired t).mp ht).1
    obtain ⟨-, o', ho', -, -, htime'⟩ := (h.linked.mem u).mp ((hexp.expired u).mp hu).1
    obtain ⟨i, timeout⟩ := t
    obtain ⟨j, timeout'⟩ := u
    dsimp only at heq ho ho' htime htime'
    subst heq
    obtain rfl := Option.some.inj (ho.symm.trans ho')
    rw [← htime, ← htime']
  -- a timer with its flag
  have hmark : ∀ id o, r.objects id = some o →
      (if id ∈ ids then (r.objects id).map fun o => { o with expired := true } else r.objects id) =
        some { o with expired := decide (id ∈ ids) || o.expired } := by
    intro id o ho
    by_cases hi : id ∈ ids
    · simp [hi, ho]
    · simp [hi, ho]
  have hcases : ∀ id x,
      (if id ∈ ids then (r.objects id).map fun o => { o with expired := true } else r.objects id) =
        some x → ∃ o, r.objects id = some o ∧ x = { o with expired := decide (id ∈ ids) || o.expired } := by
    intro id x hx
    cases ho : r.objects id with
    | none =>
      rw [ho] at hx
      split at hx <;> cases hx
    | some o => exact ⟨o, rfl, Option.some.inj (hx.symm.trans (hmark id o ho))⟩
  refine ⟨⟨hexp.wellFormed, fun t => ?_, fun i => ?_, hnodup, fun i x _ hx => ?_⟩,
    ⟨fun i x _ hx ha => ?_, fun i i' x x' n _ _ hx hx' ha ha' hn hn' => ?_, fun n hn => ?_,
      fun i x n _ hx ha hn => ?_, h.accounted.nodup, h.accounted.apart, h.accounted.due⟩,
    ⟨?_, Nat.le_refl _, fun i x n _ hx ha hn _ => ?_, fun i x hi hx => ?_⟩⟩
  · rw [hexp.kept, h.linked.mem]
    constructor
    · rintro ⟨⟨-, o, ho, hq, he, htime⟩, hlt⟩
      have hnot : t.id ∉ ids := by
        intro hin
        obtain ⟨o', ho', -, hle⟩ := (hids t.id).mp hin
        obtain rfl := Option.some.inj (ho.symm.trans ho')
        rw [htime] at hle
        exact Int64.not_lt.mpr hle hlt
      exact ⟨by simp, _, hmark t.id o ho, hq, by simp [hnot, he], htime⟩
    · rintro ⟨-, x, hx, hq, he, htime⟩
      obtain ⟨o, ho, rfl⟩ := hcases t.id x hx
      simp only [Bool.or_eq_false_iff, decide_eq_false_iff_not] at he
      refine ⟨⟨by simp, o, ho, hq, he.2, htime⟩, ?_⟩
      rw [← htime]
      apply Int64.not_le.mp
      exact fun hle => he.1 ((hids t.id).mpr ⟨o, ho, hq, hle⟩)
  · constructor
    · intro hi
      obtain ⟨o, ho, hq, -⟩ := (hids i).mp hi
      exact ⟨by simp, _, hmark i o ho, hq, by simp [hi]⟩
    · rintro ⟨-, x, hx, hq, he⟩
      obtain ⟨o, ho, rfl⟩ := hcases i x hx
      simp only [hfresh i o ho hq, Bool.or_false, decide_eq_true_eq] at he
      exact he
  · obtain ⟨o, ho, rfl⟩ := hcases i x hx
    exact h.linked.armed i o (by simp) ho
  · obtain ⟨o, ho, rfl⟩ := hcases i x hx
    exact h.accounted.pending i o (by simp) ho ha
  · obtain ⟨o, ho, rfl⟩ := hcases i x hx
    obtain ⟨o', ho', rfl⟩ := hcases i' x' hx'
    exact h.accounted.unique i i' o o' n (by simp) (by simp) ho ho' ha ha' hn hn'
  · refine (h.accounted.covered n hn).imp_right (Or.imp_right ?_)
    rintro ⟨i, o, -, ho, hrest⟩
    exact ⟨i, _, by simp, hmark i o ho, hrest⟩
  · obtain ⟨o, ho, rfl⟩ := hcases i x hx
    exact h.accounted.unarmed i o n (by simp) ho ha hn
  · rw [hexp.last]
    exact Int64.le_refl _
  · obtain ⟨o, ho, rfl⟩ := hcases i x hx
    rw [hexp.last]
    by_cases hle : o.expiry ≤ r.now
    · exact Or.inl ((hids i).mpr ⟨o, ho, (h.linked.armed i o (by simp) ho).symm.trans ha, hle⟩)
    · exact Or.inr (Int64.not_le.mp hle)
  · obtain ⟨o, ho, rfl⟩ := hcases i x hx
    obtain ⟨o', ho', -, hle⟩ := (hids i).mp hi
    obtain rfl := Option.some.inj (ho.symm.trans ho')
    rw [hexp.last]
    exact hle

/-! ## Runs -/

/-- A timer gets another callback. -/
theorem Inv.setCallback (h : r.Inv none) (ho : r.objects id = some o) (callback : Option κ) :
    (r.put id (some { o with callback })).Inv none := by
  let r' := r.put id (some { o with callback })
  have hcases : ∀ i x, r'.objects i = some x →
      ∃ o', r.objects i = some o' ∧ x = { o' with callback := x.callback } := by
    intro i x hx
    rw [put_objects] at hx
    split at hx
    · rename_i hi
      obtain rfl := Option.some.inj hx
      exact ⟨o, hi ▸ ho, rfl⟩
    · exact ⟨x, hx, rfl⟩
  have hfwd : ∀ i o', r.objects i = some o' →
      ∃ x, r'.objects i = some x ∧ x = { o' with callback := x.callback } := by
    intro i o' ho'
    rw [put_objects]
    by_cases hi : i = id
    · subst hi
      obtain rfl := Option.some.inj (ho.symm.trans ho')
      exact ⟨_, if_pos rfl, rfl⟩
    · exact ⟨o', (if_neg hi).trans ho', rfl⟩
  refine ⟨⟨h.linked.set, fun t => ?_, fun i => ?_, h.linked.nodup, fun i x _ hx => ?_⟩,
    ⟨fun i x _ hx ha => ?_, fun i i' x x' n _ _ hx hx' ha ha' hn hn' => ?_, fun n hn => ?_,
      fun i x n _ hx ha hn => ?_, h.accounted.nodup, h.accounted.apart, h.accounted.due⟩,
    ⟨h.timely.last_le, h.timely.before_le, fun i x n _ hx ha hn hlt => ?_, fun i x hi hx => ?_⟩⟩
  · refine (h.linked.mem t).trans (and_congr_right fun _ => ⟨?_, ?_⟩)
    · rintro ⟨o', ho', hrest⟩
      obtain ⟨x, hx, heq⟩ := hfwd t.id o' ho'
      exact ⟨x, hx, by rw [heq]; exact hrest⟩
    · rintro ⟨x, hx, hrest⟩
      obtain ⟨o', ho', heq⟩ := hcases t.id x hx
      exact ⟨o', ho', by rw [heq] at hrest; exact hrest⟩
  · refine (h.linked.expired i).trans (and_congr_right fun _ => ⟨?_, ?_⟩)
    · rintro ⟨o', ho', hrest⟩
      obtain ⟨x, hx, heq⟩ := hfwd i o' ho'
      exact ⟨x, hx, by rw [heq]; exact hrest⟩
    · rintro ⟨x, hx, hrest⟩
      obtain ⟨o', ho', heq⟩ := hcases i x hx
      exact ⟨o', ho', by rw [heq] at hrest; exact hrest⟩
  · obtain ⟨o', ho', heq⟩ := hcases i x hx
    rw [heq]
    exact h.linked.armed i o' (by simp) ho'
  · obtain ⟨o', ho', heq⟩ := hcases i x hx
    rw [heq] at ha ⊢
    exact h.accounted.pending i o' (by simp) ho' ha
  · obtain ⟨o', ho', heq⟩ := hcases i x hx
    obtain ⟨o'', ho'', heq'⟩ := hcases i' x' hx'
    rw [heq] at ha hn
    rw [heq'] at ha' hn'
    exact h.accounted.unique i i' o' o'' n (by simp) (by simp) ho' ho'' ha ha' hn hn'
  · refine (h.accounted.covered n hn).imp_right (Or.imp_right ?_)
    rintro ⟨i, o', -, ho', hrest⟩
    obtain ⟨x, hx, heq⟩ := hfwd i o' ho'
    exact ⟨i, x, by simp, hx, by rw [heq]; exact hrest⟩
  · obtain ⟨o', ho', heq⟩ := hcases i x hx
    rw [heq] at ha hn
    exact h.accounted.unarmed i o' n (by simp) ho' ha hn
  · obtain ⟨o', ho', heq⟩ := hcases i x hx
    rw [heq] at ha hn ⊢
    exact h.timely.found i o' n (by simp) ho' ha hn hlt
  · obtain ⟨o', ho', heq⟩ := hcases i x hx
    rw [heq]
    exact h.timely.due i o' hi ho'

theorem Settled.step {e : Event κ} (h : r.Settled) (hallowed : Allowed r e) :
    ∃ r', step r e = .ok r' ∧ r'.Settled := by
  have harm : ∀ {r₁ : Timers κ} {id expiry period}, r₁.Inv none → Aside r r₁ →
      (∀ o ∈ r₁.objects id, o.armed = false) →
      ∃ r', r₁.arm id expiry period = .ok r' ∧ r'.Settled := by
    intro r₁ id expiry period hinv haside hnot
    obtain ⟨r', hok, hinv', haside'⟩ := hinv.arm hnot expiry period
    exact ⟨r', hok, h.aside hinv' (haside.trans haside')⟩
  cases e with
  | construct id callback =>
    refine ⟨_, rfl, ?_⟩
    split
    · rename_i hnone
      have hnot : ∀ o ∈ r.objects id, o.armed = false := by
        intro o ho
        rw [Option.isNone_iff_eq_none.mp hnone] at ho
        cases ho
      refine h.aside ((h.inv.unarmed hnot).put ?_) ⟨rfl, fun hnil => hnil⟩
      intro x hx
      obtain rfl := Option.some.inj hx
      exact ⟨rfl, rfl, fun n hn => absurd hn (by simp)⟩
    · exact h
  | setCallback id callback =>
    refine ⟨_, rfl, ?_⟩
    cases ho : r.objects id with
    | none => exact h
    | some o => exact h.aside (h.inv.setCallback ho _) ⟨rfl, fun hnil => hnil⟩
  | arm id expiry period => exact harm h.inv (.refl r) hallowed
  | armPeriodic id delta => exact harm h.inv (.refl r) hallowed
  | rearm id expiry period =>
    obtain ⟨hinv, haside, -, hnot, -⟩ := h.inv.cancel id
    exact harm hinv haside hnot
  | cancel id =>
    obtain ⟨hinv, haside, -⟩ := h.inv.cancel id
    exact ⟨_, rfl, h.aside hinv haside⟩
  | move src dst =>
    obtain ⟨hinv, haside⟩ := h.inv.move src dst
    exact ⟨_, rfl, h.aside hinv haside⟩
  | destroy id =>
    obtain ⟨hinv, haside⟩ := h.inv.destroy id
    exact ⟨_, rfl, h.aside hinv haside⟩
  | advance now =>
    refine ⟨_, rfl, ?_⟩
    split
    · rename_i hle
      have ht := h.inv.timely
      have hl := h.inv.linked
      have ha := h.inv.accounted
      exact ⟨⟨⟨hl.set, hl.mem, hl.expired, hl.nodup, hl.armed⟩,
        ⟨ha.pending, ha.unique, ha.covered, ha.unarmed, ha.nodup, ha.apart, ha.due⟩,
        ⟨Int64.le_trans ht.last_le hle, ht.before_le, ht.found, ht.due⟩⟩, h.idle⟩
    · exact h
  | completeTimers =>
    by_cases hc : r.control = .idle
    · obtain ⟨exp, timers, hexp, hinv⟩ := h.inv.expire (h.idle hc)
      obtain ⟨r', hok, hsettled⟩ := hinv.nextCallback rfl
      refine ⟨r', ?_, hsettled⟩
      rw [Timers.step, if_pos hc, completeTimers, hexp]
      exact hok
    · exact ⟨r, if_neg hc, h⟩
  | callbackDone =>
    by_cases hc : r.control = .callback
    · obtain ⟨r', hok, hsettled⟩ := h.inv.nextCallback rfl
      exact ⟨r', (if_pos hc).trans hok, hsettled⟩
    · exact ⟨r, if_neg hc, h⟩

theorem Settled.initial : ({} : Timers κ).Settled where
  inv :=
    ⟨⟨.empty, fun t => by simp [TimerSet.Mem], fun i => by simp, List.nodup_nil,
        fun i o _ ho => absurd ho (by simp)⟩,
      ⟨fun i o _ ho => absurd ho (by simp), fun i i' o o' n _ _ ho => absurd ho (by simp),
        fun n hn => absurd hn (Nat.not_lt_zero n), fun i o n _ ho => absurd ho (by simp),
        List.nodup_nil, fun n hn => absurd hn List.not_mem_nil,
        fun c hc => absurd hc List.not_mem_nil⟩,
      ⟨Int64.le_refl _, Nat.le_refl _, fun i o n _ ho => absurd ho (by simp),
        fun i o hi => absurd hi List.not_mem_nil⟩⟩
  idle _ := rfl

theorem nextCallback_ended {ids : List Nat} (h : Timers.nextCallback ids r = .ok r') :
    r'.ended = r.ended := by
  induction ids generalizing r with
  | nil =>
    obtain rfl := Except.ok.inj h
    rfl
  | cons id ids ih =>
    rw [Timers.nextCallback] at h
    split at h
    · cases h
    · dsimp only at h
      split at h
      · split at h <;> obtain rfl := Except.ok.inj h <;> rfl
      · have hended := ih h
        exact hended

theorem cancel_ended (id : Nat) (r : Timers κ) : r.ended ⊆ (r.cancel id).2.ended := by
  rw [cancel]
  split
  · exact List.Subset.refl _
  · split
    · exact List.Subset.refl _
    · dsimp only
      split
      · rename_i o _ _ _
        obtain ⟨-, -, -, hended, -⟩ := delTimer_rest id { o with armed := false }
          { r with ended := r.ended ++ o.arming.toList }
        show r.ended ⊆ (delTimer id _ _).2.ended
        rw [hended]
        exact List.subset_append_left _ _
      · exact List.subset_append_left _ _

theorem arm_ended {expiry : Int64} {period : Option Int64} (h : r.arm id expiry period = .ok r') :
    r'.ended = r.ended := by
  rw [Timers.arm] at h
  split at h
  · obtain rfl := Except.ok.inj h
    rfl
  · split at h
    · cases h
    · obtain rfl := Except.ok.inj h
      rfl

/-- An arming that is over stays so. -/
theorem step_ended {e : Event κ} (h : step r e = .ok r') : r.ended ⊆ r'.ended := by
  cases e with
  | construct id callback =>
    obtain rfl := Except.ok.inj h
    split <;> exact List.Subset.refl _
  | setCallback id callback =>
    obtain rfl := Except.ok.inj h
    split <;> exact List.Subset.refl _
  | arm id expiry period => exact arm_ended h ▸ List.Subset.refl _
  | armPeriodic id delta => exact arm_ended h ▸ List.Subset.refl _
  | rearm id expiry period => exact arm_ended h ▸ cancel_ended id r
  | cancel id =>
    obtain rfl := Except.ok.inj h
    exact cancel_ended id r
  | move src dst =>
    obtain rfl := Except.ok.inj h
    rw [move]
    split <;> exact List.Subset.refl _
  | destroy id =>
    obtain rfl := Except.ok.inj h
    rw [destroy]
    split
    · exact List.Subset.refl _
    · rename_i o ho
      obtain ⟨-, -, -, hended, -⟩ := delTimer_rest id o r
      have hsame : (if o.queued = true then (r.delTimer id o).2 else r).ended = r.ended := by
        split
        · exact hended
        · rfl
      dsimp only
      rw [hsame]
      split
      · exact List.subset_append_left _ _
      · exact List.Subset.refl _
  | advance now =>
    obtain rfl := Except.ok.inj h
    split <;> exact List.Subset.refl _
  | completeTimers =>
    rw [step] at h
    split at h
    · obtain ⟨⟨exp, timers⟩, -, h⟩ := bind_ok.mp h
      exact nextCallback_ended h ▸ List.Subset.refl _
    · obtain rfl := Except.ok.inj h
      exact List.Subset.refl _
  | callbackDone =>
    rw [step] at h
    split at h
    · exact nextCallback_ended h ▸ List.Subset.refl _
    · obtain rfl := Except.ok.inj h
      exact List.Subset.refl _

theorem run_ended {es : List (Event κ)} (h : run r es = .ok r') : r.ended ⊆ r'.ended := by
  induction es generalizing r with
  | nil =>
    obtain rfl := Except.ok.inj h
    exact List.Subset.refl _
  | cons e es ih =>
    obtain ⟨r₁, hstep, hrun⟩ := Run.run_cons_ok.mp h
    exact List.Subset.trans (step_ended hstep) (ih hrun)

/-- The callback of the last arming of a timer is still to be called. -/
def Awaits (r : Timers κ) (id n : Nat) : Prop :=
  ∃ o, r.objects id = some o ∧ o.arming = some n ∧ n ∉ r.ran ∧ n ∉ r.ended

theorem Inv.awaits_iff (h : r.Inv none) :
    r.Awaits id n ↔ ∃ o, r.objects id = some o ∧ o.armed = true ∧ o.arming = some n := by
  constructor
  · rintro ⟨o, ho, hn, hran, hended⟩
    refine ⟨o, ho, ?_, hn⟩
    rw [← Bool.not_eq_false]
    intro ha
    exact (h.accounted.unarmed id o n (by simp) ho ha hn).elim hran hended
  · rintro ⟨o, ho, ha, hn⟩
    obtain ⟨m, hm, -, hrest⟩ := h.accounted.pending id o (by simp) ho ha
    obtain rfl := Option.some.inj (hn.symm.trans hm)
    exact ⟨o, ho, hn, hrest⟩

/-- What `cancel` returns says whether the callback is still to be called. -/
theorem Inv.cancel_iff (h : r.Inv none) (id : Nat) :
    (r.cancel id).1 = true ↔ ∃ n, r.Awaits id n := by
  obtain ⟨-, -, hiff, -⟩ := h.cancel id
  rw [hiff]
  constructor
  · rintro ⟨o, ho, ha⟩
    obtain ⟨n, hn, -⟩ := h.accounted.pending id o (by simp) ho ha
    exact ⟨n, h.awaits_iff.mpr ⟨o, ho, ha, hn⟩⟩
  · rintro ⟨n, hn⟩
    obtain ⟨o, ho, ha, -⟩ := h.awaits_iff.mp hn
    exact ⟨o, ho, ha⟩

/-- ... and it never is. -/
theorem Settled.cancelled {es : List (Event κ)} (h : r.Settled) (hn : r.Awaits id n)
    (hallowed : Run.Along Timers.step Allowed (r.cancel id).2 es) (hrun : run (r.cancel id).2 es = .ok r') :
    n ∉ r'.ran := by
  obtain ⟨hinv, haside, -, -, hended⟩ := h.inv.cancel id
  obtain ⟨o, ho, ha, har⟩ := h.inv.awaits_iff.mp hn
  obtain ⟨r'', hrun', hsettled⟩ := Run.run_ok (fun _ _ hs hp => hs.step hp)
    (h.aside hinv haside) hallowed
  obtain rfl := Except.ok.inj (hrun.symm.trans hrun')
  refine (hsettled.inv.accounted.apart n (run_ended hrun ?_)).2
  rw [hended o ho ha, har]
  exact List.mem_append_right _ (List.mem_singleton_self n)

/-- Every arming ends in one way: its callback is called, once and not before the expiry, or it is
cancelled, or its timer waits for it; a call of `complete_timers` leaves none behind that was armed
before it and due. `cancel` says whether a call was to come, and it never does. The flags agree with
the set and the list, `_expired` as long as the timer is queued. -/
theorem run_completes (es : List (Event κ)) (hallowed : Run.Along step Allowed ({} : Timers κ) es) :
    ∃ r, run {} es = .ok r ∧
      r.ran.Nodup ∧
      (∀ c ∈ r.calls, ∃ expiry, r.armings[c.arming]? = some expiry ∧ expiry ≤ c.time) ∧
      (∀ n ∈ r.ended, n ∉ r.ran) ∧
      (∀ n, n < r.armings.length → n ∈ r.ran ∨ n ∈ r.ended ∨ ∃ id, r.Awaits id n) ∧
      (r.control = .idle → ∀ id n, r.Awaits id n → n < r.before →
        ∃ expiry, r.armings[n]? = some expiry ∧ r.timers.last < expiry) ∧
      (∀ id, (r.cancel id).1 = true ↔ ∃ n, r.Awaits id n) ∧
      (∀ id n es' r', r.Awaits id n → Run.Along step Allowed (r.cancel id).2 es' →
        run (r.cancel id).2 es' = .ok r' → n ∉ r'.ran) ∧
      (∀ id o, r.objects id = some o → o.armed = o.queued ∧
        (o.queued = true ↔
          TimerSet.Mem ⟨id, o.expiry⟩ r.timers ∨ id ∈ r.expiredTimers) ∧
        (o.queued = true → (o.expired = true ↔ id ∈ r.expiredTimers) ∧
          (o.expired = true ↔ ¬ TimerSet.Mem ⟨id, o.expiry⟩ r.timers))) ∧
      (∀ t, TimerSet.Mem t r.timers ∨ t.id ∈ r.expiredTimers →
        ∃ o, r.objects t.id = some o ∧ o.queued = true) := by
  obtain ⟨r, hrun, hsettled⟩ := Run.run_ok (fun _ _ hs hp => hs.step hp) Settled.initial hallowed
  have hinv := hsettled.inv
  refine ⟨r, hrun, hinv.accounted.nodup, hinv.accounted.due, fun n hn => (hinv.accounted.apart n hn).2,
    fun n hn => ?_, fun hc id n hn hlt => ?_, hinv.cancel_iff,
    fun id n es' r' hn hal hr => hsettled.cancelled hn hal hr, fun id o ho => ?_, fun t ht => ?_⟩
  · refine (hinv.accounted.covered n hn).imp_right (Or.imp_right ?_)
    rintro ⟨id, o, -, ho, ha, har⟩
    exact ⟨id, hinv.awaits_iff.mpr ⟨o, ho, ha, har⟩⟩
  · obtain ⟨o, ho, ha, har⟩ := hinv.awaits_iff.mp hn
    obtain ⟨m, hm, hexp, -⟩ := hinv.accounted.pending id o (by simp) ho ha
    obtain rfl := Option.some.inj (har.symm.trans hm)
    refine ⟨o.expiry, hexp, (hinv.timely.found id o n (by simp) ho ha har hlt).resolve_left ?_⟩
    rw [hsettled.idle hc]
    exact List.not_mem_nil
  · have hmem : TimerSet.Mem ⟨id, o.expiry⟩ r.timers ↔ o.queued = true ∧ o.expired = false := by
      rw [hinv.linked.mem]
      constructor
      · rintro ⟨-, o', ho', hq, he, -⟩
        obtain rfl := Option.some.inj (ho.symm.trans ho')
        exact ⟨hq, he⟩
      · rintro ⟨hq, he⟩
        exact ⟨by simp, o, ho, hq, he, rfl⟩
    have hlist : id ∈ r.expiredTimers ↔ o.queued = true ∧ o.expired = true := by
      rw [hinv.linked.expired]
      constructor
      · rintro ⟨-, o', ho', hq, he⟩
        obtain rfl := Option.some.inj (ho.symm.trans ho')
        exact ⟨hq, he⟩
      · rintro ⟨hq, he⟩
        exact ⟨by simp, o, ho, hq, he⟩
    refine ⟨hinv.linked.armed id o (by simp) ho, ?_, fun hq => ⟨?_, ?_⟩⟩
    · rw [hmem, hlist]
      cases o.expired <;> simp
    · rw [hlist]
      simp [hq]
    · rw [hmem]
      simp [hq]
  · rcases ht with ht | ht
    · obtain ⟨-, o, ho, hq, -⟩ := (hinv.linked.mem t).mp ht
      exact ⟨o, ho, hq⟩
    · obtain ⟨-, o, ho, hq, -⟩ := (hinv.linked.expired t.id).mp ht
      exact ⟨o, ho, hq⟩

/-- The first callback is called with its timer, the periodic one goes on, the third is cancelled by
the first. -/
theorem run_completes_callbacks :
    ∃ r : Timers Nat, run {} [.construct 0 (some 10), .construct 1 (some 11), .construct 2 (some 12),
        .arm 0 5 none, .armPeriodic 1 5, .arm 2 6 none, .advance 7, .completeTimers, .cancel 2,
        .callbackDone, .callbackDone] = .ok r ∧
      r.ran.Nodup ∧ ∀ c ∈ r.calls, ∃ expiry, r.armings[c.arming]? = some expiry ∧ expiry ≤ c.time := by
  obtain ⟨r, hrun, hnodup, hdue, -⟩ := run_completes (κ := Nat)
    [.construct 0 (some 10), .construct 1 (some 11), .construct 2 (some 12),
      .arm 0 5 none, .armPeriodic 1 5, .arm 2 6 none, .advance 7, .completeTimers, .cancel 2,
      .callbackDone, .callbackDone] (by decide +kernel)
  exact ⟨r, hrun, hnodup, hdue⟩

/-- After the callback of a timer `_expired` is still set, though the timer is in no list. -/
theorem expired_stays :
    (run ({} : Timers Nat) [.construct 0 (some 10), .arm 0 5 none, .advance 7, .completeTimers,
      .callbackDone]).map (fun r => (r.expiredTimers, r.ran, r.objects 0)) =
      .ok ([], [0], some { callback := some 10, expiry := 5, expired := true, arming := some 0 }) := by
  decide +kernel

end Timers

end Seastar
