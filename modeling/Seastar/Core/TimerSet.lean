import Mathlib.Data.List.Nodup
import Seastar.Core.Fault
import Seastar.Lib.HighBit
import Seastar.Lib.Run

/-!
`timer_set` of `core/timer-set.hh`. Timers are kept in buckets by the highest bit
in which their timeout differs from `_last`, the time of the last expiry; a
timer that is due is in the last bucket. When `_last` moves, the timers of the
buckets below the bit that changed are all due, those of the bucket of that bit
are placed again, and all others stay where they are: their bucket is the same
for the new `_last`.
-/

namespace Seastar

open Lib

/-- A timer, with the identity of the object. -/
structure Timer where
  id : Nat
  timeout : Int64
  deriving DecidableEq, Repr

/-- `n_buckets`. -/
def nBuckets : Nat := 64

/-- `class timer_set`. -/
structure TimerSet where
  buckets : Nat → List Timer := fun _ => []
  last : Int64 := 0
  next : Int64 := Int64.maxValue
  nonEmpty : Nat → Bool := fun _ => false

namespace TimerSet

/-- `bitsets::count_leading_zeros<long>`. -/
def countLeadingZeros (value : Int64) : Nat := 62 - Nat.log2 value.toBitVec.toNat

/-- `get_index`. -/
def getIndex (timestamp : Int64) (s : TimerSet) : Nat :=
  if timestamp ≤ s.last then nBuckets - 1 else countLeadingZeros (timestamp ^^^ s.last)

/-- `bitsets::for_each_set`. -/
def forEachSet (bits : Nat → Bool) (offset : Nat) : List Nat :=
  ((List.range nBuckets).drop offset).filter bits

/-- `get_last_non_empty_bucket`. -/
def getLastNonEmptyBucket (s : TimerSet) : Nat := (forEachSet s.nonEmpty 0).getLastD 0

/-- `insert`. -/
def insert (timer : Timer) (s : TimerSet) : Bool × TimerSet :=
  let index := s.getIndex timer.timeout
  let s := { s with
    buckets := Function.update s.buckets index (s.buckets index ++ [timer])
    nonEmpty := Function.update s.nonEmpty index true }
  if timer.timeout < s.next then (true, { s with next := timer.timeout }) else (false, s)

/-- `remove`. -/
def remove (timer : Timer) (s : TimerSet) : TimerSet :=
  let index := s.getIndex timer.timeout
  let list := (s.buckets index).erase timer
  { s with
    buckets := Function.update s.buckets index list
    nonEmpty :=
      if list.isEmpty then Function.update s.nonEmpty index false else s.nonEmpty }

/-- The first loop of `expire`: the buckets of timers that are all due. -/
def spliceBuckets : List Nat → List Timer → TimerSet → List Timer × TimerSet
  | [], exp, s => (exp, s)
  | i :: is, exp, s =>
    spliceBuckets is (exp ++ s.buckets i)
      { s with
        buckets := Function.update s.buckets i []
        nonEmpty := Function.update s.nonEmpty i false }

/-- The second loop of `expire`: the bucket of `now`. -/
def drainBucket (now : Int64) (index : Nat) :
    Nat → List Timer → TimerSet → List Timer × TimerSet
  | 0, exp, s => (exp, s)
  | fuel + 1, exp, s =>
    match s.buckets index with
    | [] => (exp, s)
    | timer :: list =>
      let s := { s with buckets := Function.update s.buckets index list }
      if timer.timeout ≤ now then drainBucket now index fuel (exp ++ [timer]) s
      else drainBucket now index fuel exp (s.insert timer).2

/-- The end of `expire`: the earliest timeout of the last bucket. -/
def findNext (s : TimerSet) : TimerSet :=
  if s.next = Int64.maxValue && (forEachSet s.nonEmpty 0 ≠ []) then
    { s with next := (s.buckets s.getLastNonEmptyBucket).foldl (fun next t => min next t.timeout) s.next }
  else s

/-- `expire`. -/
def expire (now : Int64) (s : TimerSet) : Except Fault (List Timer × TimerSet) :=
  if now < s.last then .error .aborted
  else
    let index := s.getIndex now
    let (exp, s) := spliceBuckets (forEachSet s.nonEmpty (index + 1)) [] s
    let s := { s with last := now, next := Int64.maxValue }
    let (exp, s) := drainBucket now index (s.buckets index).length exp s
    let s := { s with
      nonEmpty := Function.update s.nonEmpty index (!(s.buckets index).isEmpty) }
    .ok (exp, s.findNext)

/-- `get_next_timeout`. -/
def getNextTimeout (s : TimerSet) : Int64 := max s.last s.next

/-- What can happen to a timer set. -/
inductive Action
  | insert (timer : Timer)
  | remove (timer : Timer)
  | expire (now : Int64)
  deriving DecidableEq, Repr

/-- One action. -/
def step (s : TimerSet) : Action → Except Fault TimerSet
  | .insert timer => .ok (s.insert timer).2
  | .remove timer => .ok (s.remove timer)
  | .expire now => (s.expire now).map Prod.snd

/-- The timer set after the actions, oldest first. -/
def run : TimerSet → List Action → Except Fault TimerSet := Run.run step

/-- The timer is in the set. -/
def Mem (timer : Timer) (s : TimerSet) : Prop := ∃ i < nBuckets, timer ∈ s.buckets i

/-- What the callers have to observe: only timers that are not in the set are inserted, only
timers in it are removed, and time does not go back. -/
def Valid (s : TimerSet) : Action → Prop
  | .insert timer => ¬ Mem timer s
  | .remove timer => Mem timer s
  | .expire now => s.last ≤ now

instance (timer : Timer) (s : TimerSet) : Decidable (Mem timer s) := by
  unfold Mem
  infer_instance

instance (s : TimerSet) (a : Action) : Decidable (Valid s a) := by
  cases a <;> unfold Valid <;> infer_instance

/-! ## Buckets -/

/-- A timestamp that is not negative, as a number. -/
def mag (timestamp : Int64) : Nat := timestamp.toBitVec.toNat

theorem toInt_eq_mag {t : Int64} (h : 0 ≤ t) : t.toInt = mag t := by
  have h0 : (0 : Int) ≤ t.toBitVec.toInt := Int64.le_iff_toInt_le.mp h
  show t.toBitVec.toInt = (t.toBitVec.toNat : Int)
  rw [BitVec.toInt_eq_toNat_cond] at h0 ⊢
  have hlt := t.toBitVec.isLt
  split at h0
  · rename_i hc
    rw [if_pos hc]
  · omega

theorem mag_lt {t : Int64} (h : 0 ≤ t) : mag t < 2 ^ 63 := by
  have h' := toInt_eq_mag h
  have := t.toInt_lt
  omega

theorem lt_iff_mag {a b : Int64} (ha : 0 ≤ a) (hb : 0 ≤ b) : a < b ↔ mag a < mag b := by
  rw [Int64.lt_iff_toInt_lt, toInt_eq_mag ha, toInt_eq_mag hb]
  omega

/-- The timestamp is in the bucket of bit `k`, the highest bit in which it differs from
`last`. -/
structure AtBit (last timestamp : Int64) (k : Nat) : Prop where
  agree : AgreeAbove (k + 1) (mag timestamp) (mag last)
  differ : ¬ AgreeAbove k (mag timestamp) (mag last)
  le : k ≤ 62

variable {s : TimerSet}

theorem getIndex_congr {s' : TimerSet} (h : s'.last = s.last) (t : Int64) :
    s'.getIndex t = s.getIndex t := by
  rw [getIndex, getIndex, h]

theorem getIndex_due {t : Int64} (h : t ≤ s.last) : s.getIndex t = 63 := if_pos h

theorem nonneg_of_lt {a b : Int64} (ha : 0 ≤ a) (h : a < b) : 0 ≤ b := by
  rw [Int64.le_iff_toInt_le] at ha ⊢
  rw [Int64.lt_iff_toInt_lt] at h
  omega

theorem not_le_of_lt {a b : Int64} (h : a < b) : ¬ b ≤ a := by
  rw [Int64.le_iff_toInt_le]
  rw [Int64.lt_iff_toInt_lt] at h
  omega

theorem lt_of_not_le {a b : Int64} (h : ¬ b ≤ a) : a < b := by
  rw [Int64.le_iff_toInt_le] at h
  rw [Int64.lt_iff_toInt_lt]
  omega

theorem exists_atBit {t : Int64} (hl : 0 ≤ s.last) (ht : s.last < t) :
    ∃ k, AtBit s.last t k ∧ s.getIndex t = 62 - k := by
  have ht0 := nonneg_of_lt hl ht
  have hne : mag t ≠ mag s.last := Nat.ne_of_gt ((lt_iff_mag hl ht0).mp ht)
  obtain ⟨ha, hd⟩ := (log2_xor_eq_iff hne).mp rfl
  refine ⟨_, ⟨ha, hd, ?_⟩, ?_⟩
  · have hx : mag t ^^^ mag s.last < 2 ^ 63 := Nat.xor_lt_two_pow (mag_lt ht0) (mag_lt hl)
    have := (Nat.log2_lt (by rwa [Ne, Nat.xor_eq_zero_iff])).mpr hx
    omega
  · rw [getIndex, if_neg (not_le_of_lt ht), countLeadingZeros]
    rfl

theorem AtBit.index {t : Int64} {k : Nat} (hk : AtBit s.last t k) (hl : 0 ≤ s.last)
    (ht : s.last < t) : s.getIndex t = 62 - k := by
  have hne : mag t ≠ mag s.last :=
    Nat.ne_of_gt ((lt_iff_mag hl (nonneg_of_lt hl ht)).mp ht)
  rw [getIndex, if_neg (not_le_of_lt ht), countLeadingZeros]
  have hx : (t ^^^ s.last).toBitVec.toNat = mag t ^^^ mag s.last := rfl
  rw [hx, (log2_xor_eq_iff hne).mpr ⟨hk.agree, hk.differ⟩]

theorem getIndex_lt (t : Int64) (s : TimerSet) : s.getIndex t < nBuckets := by
  rw [getIndex, countLeadingZeros, nBuckets]
  split <;> omega

/-- Of two timestamps after `_last`, the one in the later bucket is earlier. -/
theorem lt_of_index_lt {t u : Int64} (hl : 0 ≤ s.last) (ht : s.last < t) (hu : s.last < u)
    (h : s.getIndex t < s.getIndex u) : u < t := by
  obtain ⟨k, hk, hik⟩ := exists_atBit hl ht
  obtain ⟨m, hm, him⟩ := exists_atBit hl hu
  have hkl := hk.le
  have hml := hm.le
  have hagree : AgreeAbove k (mag u) (mag s.last) := hm.agree.mono (by omega)
  have hdiv := AgreeAbove.div_lt (fun h => hk.differ h.symm)
    ((lt_iff_mag hl (nonneg_of_lt hl ht)).mp ht)
  rw [← hagree] at hdiv
  exact (lt_iff_mag (nonneg_of_lt hl hu) (nonneg_of_lt hl ht)).mpr (AgreeAbove.lt_of_div_lt hdiv)

/-- A timestamp in an earlier bucket than `now` stays there when `_last` becomes `now`. -/
theorem getIndex_later {t now : Int64} (hl : 0 ≤ s.last) (hn : s.last < now) (ht : s.last < t)
    (h : s.getIndex t < s.getIndex now) :
    ({ s with last := now } : TimerSet).getIndex t = s.getIndex t := by
  obtain ⟨k, hk, hik⟩ := exists_atBit hl ht
  obtain ⟨m, hm, him⟩ := exists_atBit hl hn
  have hkl := hk.le
  have hml := hm.le
  have hagree : AgreeAbove k (mag now) (mag s.last) := hm.agree.mono (by omega)
  have hnow : 0 ≤ now := nonneg_of_lt hl hn
  have hat : AtBit now t k :=
    ⟨hk.agree.trans (hagree.mono (Nat.le_succ k)).symm, fun hc => hk.differ (hc.trans hagree), hkl⟩
  rw [hik]
  exact hat.index (s := { s with last := now }) hnow (lt_of_index_lt hl ht hn h)

/-- A timestamp after `now` in its bucket moves to a later one. -/
theorem getIndex_moves {t now : Int64} (hl : 0 ≤ s.last) (hn : s.last < now) (ht : now < t)
    (h : s.getIndex t = s.getIndex now) :
    s.getIndex now < ({ s with last := now } : TimerSet).getIndex t := by
  have hnow : 0 ≤ now := nonneg_of_lt hl hn
  have hlt : s.last < t := by
    rw [Int64.lt_iff_toInt_lt] at *
    omega
  obtain ⟨k, hk, hik⟩ := exists_atBit hl hlt
  obtain ⟨m, hm, him⟩ := exists_atBit hl hn
  have hkl := hk.le
  have hml := hm.le
  have hkm : k = m := by omega
  rw [hkm] at hk
  obtain ⟨j, hj, hij⟩ := exists_atBit (s := { s with last := now }) hnow ht
  have hjl := hj.le
  have hag : AgreeAbove m (mag t) (mag now) :=
    AgreeAbove.of_leave hk.agree hm.agree hk.differ hm.differ
      ((lt_iff_mag hl (nonneg_of_lt hl hlt)).mp hlt) ((lt_iff_mag hl hnow).mp hn)
  have hjm : j < m := by
    by_contra hc
    exact hj.differ (hag.mono (Nat.le_of_not_lt hc))
  omega

/-! ## The invariant -/

/-- Every timer is in the bucket of its timeout, a bucket is marked when it has timers, and
`_next` is not after any timeout. -/
structure WellFormed (s : TimerSet) : Prop where
  last_nonneg : 0 ≤ s.last
  placed : ∀ {i t}, t ∈ s.buckets i → s.getIndex t.timeout = i
  marked : ∀ i, s.nonEmpty i = true ↔ s.buckets i ≠ []
  nodup : ∀ i, (s.buckets i).Nodup
  next_le : ∀ {i t}, t ∈ s.buckets i → s.next ≤ t.timeout

theorem WellFormed.empty : WellFormed {} where
  last_nonneg := Int64.le_refl 0
  placed h := absurd h List.not_mem_nil
  marked _ := ⟨fun h => (Bool.false_ne_true h).elim, fun h => (h rfl).elim⟩
  nodup _ := List.nodup_nil
  next_le h := absurd h List.not_mem_nil

/-- A timer of the set is looked for in one bucket. -/
theorem WellFormed.mem_iff (hs : WellFormed s) {t : Timer} :
    Mem t s ↔ t ∈ s.buckets (s.getIndex t.timeout) := by
  constructor
  · rintro ⟨i, hi, ht⟩
    rw [hs.placed ht]
    exact ht
  · intro ht
    exact ⟨_, getIndex_lt _ _, ht⟩

theorem WellFormed.mem_of_bucket (hs : WellFormed s) {t : Timer} {i : Nat}
    (ht : t ∈ s.buckets i) : Mem t s := by
  rw [hs.mem_iff, hs.placed ht]
  exact ht

theorem nodup_snoc {l : List Timer} {t : Timer} (h : l.Nodup) (ht : t ∉ l) :
    (l ++ [t]).Nodup := by
  rw [← List.concat_eq_append]
  exact List.Nodup.concat ht h

@[simp] theorem insert_last (timer : Timer) (s : TimerSet) : (s.insert timer).2.last = s.last := by
  unfold insert
  dsimp only
  split <;> rfl

theorem insert_bucket (timer : Timer) (s : TimerSet) (i : Nat) :
    (s.insert timer).2.buckets i =
      if i = s.getIndex timer.timeout then s.buckets i ++ [timer] else s.buckets i := by
  unfold insert
  dsimp only
  split <;> by_cases hi : i = s.getIndex timer.timeout <;> simp [hi]

theorem insert_marked (timer : Timer) (s : TimerSet) (i : Nat) :
    (s.insert timer).2.nonEmpty i =
      if i = s.getIndex timer.timeout then true else s.nonEmpty i := by
  unfold insert
  dsimp only
  split <;> by_cases hi : i = s.getIndex timer.timeout <;> simp [hi]

theorem insert_next (timer : Timer) (s : TimerSet) :
    (s.insert timer).2.next = if timer.timeout < s.next then timer.timeout else s.next := by
  unfold insert
  dsimp only
  split <;> rfl

/-- `_next` after `insert` is the earlier of the two. -/
theorem insert_next_le (timer : Timer) (s : TimerSet) :
    (s.insert timer).2.next ≤ timer.timeout ∧ (s.insert timer).2.next ≤ s.next := by
  rw [insert_next]
  split
  · rename_i h
    exact ⟨Int64.le_refl _, Int64.le_of_lt h⟩
  · rename_i h
    exact ⟨Int64.not_lt.mp h, Int64.le_refl _⟩

theorem mem_insert_bucket {timer t : Timer} {i : Nat} :
    t ∈ (s.insert timer).2.buckets i ↔
      (t = timer ∧ i = s.getIndex timer.timeout) ∨ t ∈ s.buckets i := by
  rw [insert_bucket]
  split
  · rename_i hi
    rw [List.mem_append, List.mem_singleton, or_comm, and_iff_left hi]
  · rename_i hi
    exact ⟨Or.inr, fun h => h.resolve_left fun h => hi h.2⟩

theorem mem_insert {timer t : Timer} : Mem t (s.insert timer).2 ↔ t = timer ∨ Mem t s := by
  constructor
  · rintro ⟨i, hi, ht⟩
    rcases mem_insert_bucket.mp ht with ⟨rfl, -⟩ | ht
    · exact Or.inl rfl
    · exact Or.inr ⟨i, hi, ht⟩
  · rintro (rfl | ⟨i, hi, ht⟩)
    · exact ⟨_, getIndex_lt _ _, mem_insert_bucket.mpr (Or.inl ⟨rfl, rfl⟩)⟩
    · exact ⟨i, hi, mem_insert_bucket.mpr (Or.inr ht)⟩

/-- `insert` keeps the invariant. -/
theorem WellFormed.insert (hs : WellFormed s) {timer : Timer} (hnew : ¬ Mem timer s) :
    WellFormed (s.insert timer).2 where
  last_nonneg := by
    rw [insert_last]
    exact hs.last_nonneg
  placed := by
    intro i t ht
    rw [getIndex_congr (insert_last timer s)]
    rcases mem_insert_bucket.mp ht with ⟨rfl, rfl⟩ | ht
    · rfl
    · exact hs.placed ht
  marked i := by
    rw [insert_marked, insert_bucket]
    split
    · exact ⟨fun _ h => List.cons_ne_nil _ _ (List.append_eq_nil_iff.mp h).2, fun _ => rfl⟩
    · exact hs.marked i
  nodup i := by
    rw [insert_bucket]
    split
    · rename_i hi
      exact nodup_snoc (hs.nodup i) fun h => hnew (hs.mem_of_bucket h)
    · exact hs.nodup i
  next_le := by
    intro i t ht
    have hle := insert_next_le timer s
    rcases mem_insert_bucket.mp ht with ⟨rfl, -⟩ | ht
    · exact hle.1
    · exact Int64.le_trans hle.2 (hs.next_le ht)

theorem remove_bucket (timer : Timer) (s : TimerSet) (i : Nat) :
    (s.remove timer).buckets i =
      if i = s.getIndex timer.timeout then (s.buckets i).erase timer else s.buckets i := by
  by_cases hi : i = s.getIndex timer.timeout
  · rw [if_pos hi, hi]
    exact Function.update_self ..
  · rw [if_neg hi]
    exact Function.update_of_ne hi ..

theorem remove_marked (timer : Timer) (s : TimerSet) (i : Nat) :
    (s.remove timer).nonEmpty i =
      if i = s.getIndex timer.timeout ∧ (s.buckets i).erase timer = [] then false
      else s.nonEmpty i := by
  unfold remove
  dsimp only
  by_cases hi : i = s.getIndex timer.timeout
  · subst hi
    cases (s.buckets (s.getIndex timer.timeout)).erase timer with
    | nil => simp
    | cons t l => simp
  · split <;> simp [hi]

theorem WellFormed.mem_remove (hs : WellFormed s) {timer t : Timer} :
    Mem t (s.remove timer) ↔ Mem t s ∧ t ≠ timer := by
  have hiff : ∀ i, t ∈ (s.remove timer).buckets i ↔ t ∈ s.buckets i ∧ t ≠ timer := by
    intro i
    rw [remove_bucket]
    split
    · rw [(hs.nodup i).mem_erase_iff, and_comm]
    · rename_i hi
      refine ⟨fun ht => ⟨ht, ?_⟩, And.left⟩
      rintro rfl
      exact hi (hs.placed ht).symm
  constructor
  · rintro ⟨i, hi, ht⟩
    exact ⟨⟨i, hi, ((hiff i).mp ht).1⟩, ((hiff i).mp ht).2⟩
  · rintro ⟨⟨i, hi, ht⟩, hne⟩
    exact ⟨i, hi, (hiff i).mpr ⟨ht, hne⟩⟩

/-- `remove` keeps the invariant. -/
theorem WellFormed.remove (hs : WellFormed s) (timer : Timer) : WellFormed (s.remove timer) := by
  have hsub : ∀ i, List.Sublist ((s.remove timer).buckets i) (s.buckets i) := by
    intro i
    rw [remove_bucket]
    split
    · exact List.erase_sublist
    · exact List.Sublist.refl _
  refine ⟨hs.last_nonneg, ?_, ?_, ?_, ?_⟩
  · intro i t ht
    exact hs.placed ((hsub i).mem ht)
  · intro i
    rw [remove_marked, remove_bucket]
    by_cases hi : i = s.getIndex timer.timeout
    · rw [if_pos hi]
      split
      · rename_i h
        exact ⟨fun hf => (Bool.false_ne_true hf).elim, fun hne => (hne h.2).elim⟩
      · rename_i h
        have hne : (s.buckets i).erase timer ≠ [] := fun hc => h ⟨hi, hc⟩
        refine ⟨fun _ => hne, fun _ => (hs.marked i).mpr ?_⟩
        intro hc
        rw [hc] at hne
        exact hne rfl
    · rw [if_neg hi, if_neg fun h => hi h.1]
      exact hs.marked i
  · intro i
    exact (hs.nodup i).sublist (hsub i)
  · intro i t ht
    exact hs.next_le ((hsub i).mem ht)

theorem WellFormed.mem_iff_exists (hs : WellFormed s) {t : Timer} :
    Mem t s ↔ ∃ i, t ∈ s.buckets i :=
  ⟨fun ⟨i, _, ht⟩ => ⟨i, ht⟩, fun ⟨_, ht⟩ => hs.mem_of_bucket ht⟩

/-! ## Expiry -/

theorem mem_forEachSet {bits : Nat → Bool} {offset i : Nat} :
    i ∈ forEachSet bits offset ↔ i < nBuckets ∧ offset ≤ i ∧ bits i = true := by
  rw [forEachSet, List.mem_filter, List.range_eq_range', List.drop_range', List.mem_range'_1]
  unfold nBuckets
  constructor
  · rintro ⟨⟨h₁, h₂⟩, hb⟩
    exact ⟨by omega, by omega, hb⟩
  · rintro ⟨h₁, h₂, hb⟩
    exact ⟨⟨by omega, by omega⟩, hb⟩

theorem forEachSet_sorted (bits : Nat → Bool) (offset : Nat) :
    (forEachSet bits offset).Pairwise (· < ·) :=
  (List.pairwise_lt_range.sublist (List.drop_sublist _ _)).filter _

theorem spliceBuckets_eq (is : List Nat) (exp : List Timer) (s : TimerSet) (hd : is.Nodup) :
    spliceBuckets is exp s = (exp ++ is.flatMap s.buckets, { s with
      buckets := fun i => if i ∈ is then [] else s.buckets i
      nonEmpty := fun i => if i ∈ is then false else s.nonEmpty i }) := by
  induction is generalizing exp s with
  | nil => simp [spliceBuckets]
  | cons i is ih =>
    obtain ⟨hi, hd⟩ := List.nodup_cons.mp hd
    rw [spliceBuckets, ih _ _ hd]
    have hmap : is.flatMap (Function.update s.buckets i []) = is.flatMap s.buckets := by
      apply List.flatMap_congr
      intro j hj
      exact Function.update_of_ne (fun (h : j = i) => hi (h ▸ hj)) ..
    refine Prod.ext ?_ ?_
    · show exp ++ s.buckets i ++ is.flatMap (Function.update s.buckets i []) = _
      rw [hmap, List.flatMap_cons, List.append_assoc]
    · have hb : ∀ {α : Type} (f : Nat → α) (x : α),
          (fun j => if j ∈ is then x else Function.update f i x j) =
            fun j => if j ∈ i :: is then x else f j := by
        intro α f x
        funext j
        by_cases hj : j = i
        · simp [hj]
        · simp [hj]
      simp only [hb]

/-- The second loop of `expire(now)` on bucket `index`: `_last` has moved, the timers of that
bucket are still to be placed, and all others are placed and after `now`. -/
structure Draining (now : Int64) (index : Nat) (s : TimerSet) : Prop where
  now_nonneg : 0 ≤ now
  last : s.last = now
  placed : ∀ {i t}, i ≠ index → t ∈ s.buckets i → s.getIndex t.timeout = i ∧ now < t.timeout
  rest : ∀ {t}, t ∈ s.buckets index → now < t.timeout → index < s.getIndex t.timeout
  fresh : ∀ {i t}, i ≠ index → t ∈ s.buckets index → t ∉ s.buckets i
  marked : ∀ i, i ≠ index → (s.nonEmpty i = true ↔ s.buckets i ≠ [])
  nodup : ∀ i, (s.buckets i).Nodup
  next_le : ∀ {i t}, index < i → t ∈ s.buckets i → s.next ≤ t.timeout
  next_attained : s.next = Int64.maxValue ∨ ∃ i t, index < i ∧ t ∈ s.buckets i ∧ t.timeout = s.next

variable {now : Int64} {index : Nat}

/-- A timer is taken out of the bucket. -/
theorem Draining.pop (hs : Draining now index s) {timer : Timer} {list : List Timer} {s' : TimerSet}
    (h : s.buckets index = timer :: list) (hself : s'.buckets index = list)
    (hne : ∀ {i}, i ≠ index → s'.buckets i = s.buckets i) (hlast : s'.last = s.last)
    (hnext : s'.next = s.next) (hmarked : s'.nonEmpty = s.nonEmpty) : Draining now index s' := by
  have hidx := getIndex_congr hlast
  have hsub : ∀ {t}, t ∈ s'.buckets index → t ∈ s.buckets index := fun ht =>
    h ▸ List.mem_cons_of_mem _ (hself ▸ ht)
  refine ⟨hs.now_nonneg, hlast.trans hs.last, ?_, ?_, ?_, ?_, ?_, ?_, ?_⟩
  · intro i t hi ht
    rw [hne hi] at ht
    rw [hidx]
    exact hs.placed hi ht
  · intro t ht hlt
    rw [hidx]
    exact hs.rest (hsub ht) hlt
  · intro i t hi ht
    rw [hne hi]
    exact hs.fresh hi (hsub ht)
  · intro i hi
    rw [hne hi, hmarked]
    exact hs.marked i hi
  · intro i
    by_cases hi : i = index
    · subst hi
      rw [hself]
      have hd := hs.nodup i
      rw [h] at hd
      exact (List.nodup_cons.mp hd).2
    · rw [hne hi]
      exact hs.nodup i
  · intro i t hi ht
    rw [hne (Nat.ne_of_gt hi)] at ht
    rw [hnext]
    exact hs.next_le hi ht
  · rw [hnext]
    rcases hs.next_attained with hm | ⟨i, t, hi, ht, hn⟩
    · exact Or.inl hm
    · refine Or.inr ⟨i, t, hi, ?_, hn⟩
      rw [hne (Nat.ne_of_gt hi)]
      exact ht

/-- A timer after `now` is placed again, in a later bucket. -/
theorem Draining.insert (hs : Draining now index s) {timer : Timer} (hlt : now < timer.timeout)
    (hi : index < s.getIndex timer.timeout) (hnew : ∀ i, timer ∉ s.buckets i) :
    Draining now index (s.insert timer).2 := by
  have hidx := getIndex_congr (insert_last timer s)
  refine ⟨hs.now_nonneg, (insert_last timer s).trans hs.last, ?_, ?_, ?_, ?_, ?_, ?_, ?_⟩
  · intro i t hne ht
    rw [hidx]
    rcases mem_insert_bucket.mp ht with ⟨rfl, rfl⟩ | ht
    · exact ⟨rfl, hlt⟩
    · exact hs.placed hne ht
  · intro t ht hlt'
    rw [hidx]
    rcases mem_insert_bucket.mp ht with ⟨rfl, -⟩ | ht
    · exact hi
    · exact hs.rest ht hlt'
  · intro i t hne ht ht'
    rcases mem_insert_bucket.mp ht with ⟨-, h⟩ | hidx'
    · exact Nat.ne_of_lt hi h
    · rcases mem_insert_bucket.mp ht' with ⟨rfl, -⟩ | hti
      · exact hnew index hidx'
      · exact hs.fresh hne hidx' hti
  · intro i hne
    rw [insert_marked, insert_bucket]
    split
    · exact ⟨fun _ h => List.cons_ne_nil _ _ (List.append_eq_nil_iff.mp h).2, fun _ => rfl⟩
    · exact hs.marked i hne
  · intro i
    rw [insert_bucket]
    split
    · exact nodup_snoc (hs.nodup i) (hnew i)
    · exact hs.nodup i
  · intro i t hlt' ht
    have hle := insert_next_le timer s
    rcases mem_insert_bucket.mp ht with ⟨rfl, -⟩ | ht
    · exact hle.1
    · exact Int64.le_trans hle.2 (hs.next_le hlt' ht)
  · rw [insert_next]
    split
    · exact Or.inr ⟨_, timer, hi, mem_insert_bucket.mpr (Or.inl ⟨rfl, rfl⟩), rfl⟩
    · rcases hs.next_attained with hm | ⟨i, t, hlt', ht, hn⟩
      · exact Or.inl hm
      · exact Or.inr ⟨i, t, hlt', mem_insert_bucket.mpr (Or.inr ht), hn⟩

/-- What the second loop of `expire` leaves. -/
structure Drained (now : Int64) (index : Nat) (exp : List Timer) (s : TimerSet)
    (exp' : List Timer) (s' : TimerSet) : Prop where
  draining : Draining now index s'
  bucket : s'.buckets index = []
  expired : exp' = exp ++ (s.buckets index).filter (fun t => decide (t.timeout ≤ now))
  kept : ∀ t, (∃ i, t ∈ s'.buckets i) ↔
    (∃ i, i ≠ index ∧ t ∈ s.buckets i) ∨ (t ∈ s.buckets index ∧ now < t.timeout)

theorem Draining.drain (hs : Draining now index s) {fuel : Nat} (exp : List Timer)
    (hf : fuel = (s.buckets index).length) :
    Drained now index exp s (drainBucket now index fuel exp s).1
      (drainBucket now index fuel exp s).2 := by
  induction fuel generalizing s exp with
  | zero =>
    have hnil : s.buckets index = [] := List.length_eq_zero_iff.mp hf.symm
    refine ⟨hs, hnil, ?_, ?_⟩
    · rw [hnil]
      exact (List.append_nil exp).symm
    · intro t
      rw [hnil]
      constructor
      · rintro ⟨i, ht⟩
        refine Or.inl ⟨i, ?_, ht⟩
        rintro rfl
        rw [show (drainBucket now i 0 exp s).2 = s from rfl, hnil] at ht
        exact absurd ht List.not_mem_nil
      · rintro (⟨i, -, ht⟩ | ⟨ht, -⟩)
        · exact ⟨i, ht⟩
        · exact absurd ht List.not_mem_nil
  | succ fuel ih =>
    rw [drainBucket]
    cases hb : s.buckets index with
    | nil =>
      rw [hb] at hf
      exact absurd hf (Nat.succ_ne_zero fuel)
    | cons timer list =>
      have hfuel : fuel = list.length := by
        rw [hb] at hf
        exact Nat.succ.inj hf
      have hmem : timer ∈ s.buckets index := hb ▸ List.mem_cons_self
      have hnodup := hs.nodup index
      rw [hb] at hnodup
      dsimp only
      generalize hs₁ : ({ s with buckets := Function.update s.buckets index list } : TimerSet) = s₁
      have hself : s₁.buckets index = list := hs₁ ▸ Function.update_self ..
      have hne : ∀ {i}, i ≠ index → s₁.buckets i = s.buckets i :=
        fun hi => hs₁ ▸ Function.update_of_ne hi ..
      have hlast : s₁.last = s.last := hs₁ ▸ rfl
      have hpop : Draining now index s₁ := hs.pop hb hself hne hlast (hs₁ ▸ rfl) (hs₁ ▸ rfl)
      split
      · -- the timer is due
        rename_i hdue
        obtain ⟨hd, hempty, hexp, hkept⟩ := ih hpop (exp ++ [timer]) (by rw [hself]; exact hfuel)
        refine ⟨hd, hempty, ?_, ?_⟩
        · rw [hexp, hb, List.filter_cons_of_pos (by simpa using hdue), hself, List.append_assoc]
          rfl
        · intro t
          rw [hkept, hself, hb, List.mem_cons]
          constructor
          · rintro (⟨i, hi, ht⟩ | ⟨ht, hlt⟩)
            · exact Or.inl ⟨i, hi, hne hi ▸ ht⟩
            · exact Or.inr ⟨Or.inr ht, hlt⟩
          · rintro (⟨i, hi, ht⟩ | ⟨rfl | ht, hlt⟩)
            · exact Or.inl ⟨i, hi, (hne hi).symm ▸ ht⟩
            · exact absurd hdue (not_le_of_lt hlt)
            · exact Or.inr ⟨ht, hlt⟩
      · -- the timer is placed again
        rename_i hdue
        have hlt := lt_of_not_le hdue
        have hidx : index < s₁.getIndex timer.timeout := by
          rw [getIndex_congr hlast]
          exact hs.rest hmem hlt
        have hnew : ∀ i, timer ∉ s₁.buckets i := by
          intro i
          by_cases hi : i = index
          · rw [hi, hself]
            exact (List.nodup_cons.mp hnodup).1
          · rw [hne hi]
            exact hs.fresh hi hmem
        have hins := hpop.insert hlt hidx hnew
        have hlist : (s₁.insert timer).2.buckets index = list := by
          rw [insert_bucket, if_neg (Nat.ne_of_lt hidx), hself]
        obtain ⟨hd, hempty, hexp, hkept⟩ := ih hins exp (by rw [hlist]; exact hfuel)
        refine ⟨hd, hempty, ?_, ?_⟩
        · rw [hexp, hlist, hb, List.filter_cons_of_neg (by simpa using hdue)]
        · intro t
          rw [hkept, hlist, hb, List.mem_cons]
          constructor
          · rintro (⟨i, hi, ht⟩ | ⟨ht, hlt'⟩)
            · rcases mem_insert_bucket.mp ht with ⟨rfl, -⟩ | ht
              · exact Or.inr ⟨Or.inl rfl, hlt⟩
              · exact Or.inl ⟨i, hi, hne hi ▸ ht⟩
            · exact Or.inr ⟨Or.inr ht, hlt'⟩
          · rintro (⟨i, hi, ht⟩ | ⟨rfl | ht, hlt'⟩)
            · exact Or.inl ⟨i, hi, mem_insert_bucket.mpr (Or.inr ((hne hi).symm ▸ ht))⟩
            · exact Or.inl ⟨_, Nat.ne_of_gt hidx, mem_insert_bucket.mpr (Or.inl ⟨rfl, rfl⟩)⟩
            · exact Or.inr ⟨ht, hlt'⟩

/-- The timers of `expire` before its second loop: those of later buckets are all due. -/
theorem WellFormed.draining (hs : WellFormed s) (hnow : s.last ≤ now) {s' : TimerSet}
    (hb : ∀ i, s'.buckets i = if s.getIndex now < i then [] else s.buckets i)
    (hm : ∀ i, i ≠ s.getIndex now →
      s'.nonEmpty i = if s.getIndex now < i then false else s.nonEmpty i)
    (hl : s'.last = now) (hn : s'.next = Int64.maxValue) :
    Draining now (s.getIndex now) s' := by
  have hlow : ∀ {i}, i ≤ s.getIndex now → s'.buckets i = s.buckets i := fun hi => by
    rw [hb, if_neg (Nat.not_lt.mpr hi)]
  have hhigh : ∀ {i t}, s.getIndex now < i → t ∉ s'.buckets i := fun hi => by
    rw [hb, if_pos hi]
    exact List.not_mem_nil
  have hcongr : ∀ t, s'.getIndex t = ({ s with last := now } : TimerSet).getIndex t :=
    fun t => getIndex_congr (s := { s with last := now }) hl t
  refine ⟨Int64.le_trans hs.last_nonneg hnow, hl, ?_, ?_, ?_, ?_, ?_, ?_, Or.inl hn⟩
  · intro i t hi ht
    have hlt : i < s.getIndex now := by
      rcases Nat.lt_trichotomy i (s.getIndex now) with h | h | h
      · exact h
      · exact absurd h hi
      · exact absurd ht (hhigh h)
    rw [hlow (Nat.le_of_lt hlt)] at ht
    have hidx := hs.placed ht
    rw [← hidx] at hlt
    have hafter : s.last < t.timeout := by
      refine lt_of_not_le fun hc => ?_
      rw [getIndex_due hc] at hlt
      exact absurd (getIndex_lt now s) (Nat.not_lt.mpr hlt)
    rw [hcongr]
    by_cases hn' : now ≤ s.last
    · obtain rfl : now = s.last := Int64.le_antisymm hn' hnow
      exact ⟨hidx, hafter⟩
    · have hnow' := lt_of_not_le hn'
      exact ⟨(getIndex_later hs.last_nonneg hnow' hafter hlt).trans hidx,
        lt_of_index_lt hs.last_nonneg hafter hnow' hlt⟩
  · intro t ht hlt
    rw [hlow (Nat.le_refl _)] at ht
    have hidx := hs.placed ht
    rw [hcongr]
    by_cases hn' : now ≤ s.last
    · rw [getIndex_due hn'] at hidx
      obtain ⟨k, -, hk⟩ := exists_atBit hs.last_nonneg (Int64.lt_of_le_of_lt hnow hlt)
      omega
    · exact getIndex_moves hs.last_nonneg (lt_of_not_le hn') hlt hidx
  · intro i t hi ht ht'
    rw [hlow (Nat.le_refl _)] at ht
    have hle : i ≤ s.getIndex now := Nat.le_of_not_lt fun h => hhigh h ht'
    rw [hlow hle] at ht'
    exact hi ((hs.placed ht').symm.trans (hs.placed ht))
  · intro i hi
    rw [hm i hi, hb]
    split
    · exact ⟨fun h => (Bool.false_ne_true h).elim, fun h => (h rfl).elim⟩
    · exact hs.marked i
  · intro i
    rw [hb]
    split
    · exact List.nodup_nil
    · exact hs.nodup i
  · intro i t hi ht
    exact absurd ht (hhigh hi)

/-- The timers of the buckets after that of `now` are due. -/
theorem WellFormed.due_of_index (hs : WellFormed s) {t : Timer} {i : Nat}
    (ht : t ∈ s.buckets i) (hi : s.getIndex now < i) : t.timeout ≤ now := by
  rw [← hs.placed ht] at hi
  by_contra hc
  have hlt := lt_of_not_le hc
  by_cases hn : now ≤ s.last
  · rw [getIndex_due hn] at hi
    exact absurd (getIndex_lt t.timeout s) (Nat.not_lt.mpr hi)
  · have hn' := lt_of_not_le hn
    have := lt_of_index_lt hs.last_nonneg hn' (Int64.lt_trans hn' hlt) hi
    exact not_le_of_lt hlt (Int64.le_of_lt this)

@[simp] theorem findNext_buckets (s : TimerSet) : s.findNext.buckets = s.buckets := by
  unfold findNext
  split <;> rfl

@[simp] theorem findNext_last (s : TimerSet) : s.findNext.last = s.last := by
  unfold findNext
  split <;> rfl

@[simp] theorem findNext_nonEmpty (s : TimerSet) : s.findNext.nonEmpty = s.nonEmpty := by
  unfold findNext
  split <;> rfl

theorem foldl_min_le (l : List Timer) (next : Int64) :
    l.foldl (fun next t => min next t.timeout) next ≤ next ∧
      ∀ t ∈ l, l.foldl (fun next t => min next t.timeout) next ≤ t.timeout := by
  induction l generalizing next with
  | nil => exact ⟨Int64.le_refl _, fun _ h => absurd h List.not_mem_nil⟩
  | cons u l ih =>
    rw [List.foldl_cons]
    obtain ⟨h, hl⟩ := ih (min next u.timeout)
    refine ⟨Int64.le_trans h (Std.min_le_left), ?_⟩
    intro t ht
    rcases List.mem_cons.mp ht with rfl | ht
    · exact Int64.le_trans h (Std.min_le_right)
    · exact hl t ht

theorem getLastNonEmptyBucket_spec {i : Nat} (hi : i < nBuckets) (hm : s.nonEmpty i = true) :
    forEachSet s.nonEmpty 0 ≠ [] ∧ i ≤ s.getLastNonEmptyBucket ∧
      s.nonEmpty s.getLastNonEmptyBucket = true := by
  have hmem : i ∈ forEachSet s.nonEmpty 0 := mem_forEachSet.mpr ⟨hi, Nat.zero_le i, hm⟩
  have hne : forEachSet s.nonEmpty 0 ≠ [] := List.ne_nil_of_mem hmem
  have hlast : s.getLastNonEmptyBucket = (forEachSet s.nonEmpty 0).getLast hne := by
    rw [getLastNonEmptyBucket, List.getLastD_eq_getLast?, List.getLast?_eq_some_getLast hne]
    rfl
  refine ⟨hne, ?_, ?_⟩
  · rw [hlast]
    have hsorted := forEachSet_sorted s.nonEmpty 0
    generalize forEachSet s.nonEmpty 0 = l at *
    rw [← List.dropLast_append_getLast hne] at hmem hsorted
    rcases List.mem_append.mp hmem with h | h
    · exact Nat.le_of_lt ((List.pairwise_append.mp hsorted).2.2 _ h _ (List.mem_singleton_self _))
    · exact Nat.le_of_eq (List.mem_singleton.mp h)
  · rw [hlast]
    exact (mem_forEachSet.mp (List.getLast_mem hne)).2.2

/-- The last bucket with timers has the earliest one. -/
theorem findNext_next_le (hl : 0 ≤ s.last)
    (hplaced : ∀ {i t}, t ∈ s.buckets i → s.getIndex t.timeout = i ∧ s.last < t.timeout)
    (hmarked : ∀ i, s.nonEmpty i = true ↔ s.buckets i ≠ [])
    (hnext : s.next = Int64.maxValue ∨ ∀ {i t}, t ∈ s.buckets i → s.next ≤ t.timeout)
    {i : Nat} {t : Timer} (ht : t ∈ s.buckets i) : s.findNext.next ≤ t.timeout := by
  have hi : i < nBuckets := (hplaced ht).1 ▸ getIndex_lt _ _
  obtain ⟨hany, hle, hlast⟩ :=
    getLastNonEmptyBucket_spec hi ((hmarked i).mpr (List.ne_nil_of_mem ht))
  unfold findNext
  split
  · show List.foldl _ _ _ ≤ _
    have hmin := (foldl_min_le (s.buckets s.getLastNonEmptyBucket) s.next).2
    rcases Nat.lt_or_eq_of_le hle with hlt | heq
    · obtain ⟨u, hu⟩ := List.exists_mem_of_ne_nil _ ((hmarked _).mp hlast)
      obtain ⟨hiu, hau⟩ := hplaced hu
      obtain ⟨hit, hat⟩ := hplaced ht
      have hut : u.timeout < t.timeout := lt_of_index_lt hl hat hau (by rw [hit, hiu]; exact hlt)
      exact Int64.le_trans (hmin u hu) (Int64.le_of_lt hut)
    · rw [← heq] at hmin ⊢
      exact hmin t ht
  · rename_i hc
    rcases hnext with hm | hle
    · exact absurd (by simp [hm, hany]) hc
    · exact hle ht

/-- What `expire(now)` returns and leaves. -/
structure Expired (now : Int64) (s : TimerSet) (exp : List Timer) (s' : TimerSet) : Prop where
  wellFormed : WellFormed s'
  last : s'.last = now
  nodup : exp.Nodup
  expired : ∀ t, t ∈ exp ↔ Mem t s ∧ t.timeout ≤ now
  kept : ∀ t, Mem t s' ↔ Mem t s ∧ now < t.timeout

/-- The end of `expire` after its loops. -/
theorem Draining.wellFormed (hs : Draining now index s) (hempty : s.buckets index = [])
    (hm : s.nonEmpty index = false) : WellFormed s.findNext := by
  have hne : ∀ {i t}, t ∈ s.buckets i → i ≠ index := by
    rintro i t ht rfl
    rw [hempty] at ht
    exact absurd ht List.not_mem_nil
  have hplaced : ∀ {i t}, t ∈ s.buckets i → s.getIndex t.timeout = i ∧ s.last < t.timeout := by
    intro i t ht
    rw [hs.last]
    exact hs.placed (hne ht) ht
  have hl : 0 ≤ s.last := hs.last ▸ hs.now_nonneg
  have hmarked : ∀ i, s.nonEmpty i = true ↔ s.buckets i ≠ [] := by
    intro i
    by_cases hi : i = index
    · rw [hi, hm, hempty]
      exact ⟨fun h => (Bool.false_ne_true h).elim, fun h => (h rfl).elim⟩
    · exact hs.marked i hi
  have hnext : s.next = Int64.maxValue ∨ ∀ {i t}, t ∈ s.buckets i → s.next ≤ t.timeout := by
    rcases hs.next_attained with h | ⟨j, u, hj, hu, hn⟩
    · exact Or.inl h
    · refine Or.inr fun {i t} ht => ?_
      rcases Nat.lt_trichotomy i index with h | h | h
      · obtain ⟨hit, hat⟩ := hplaced ht
        obtain ⟨hiu, hau⟩ := hplaced hu
        rw [← hn]
        refine Int64.le_of_lt (lt_of_index_lt hl hat hau ?_)
        rw [hit, hiu]
        exact Nat.lt_trans h hj
      · exact absurd h (hne ht)
      · exact hs.next_le h ht
  refine ⟨?_, ?_, ?_, ?_, ?_⟩
  · rw [findNext_last]
    exact hl
  · intro i t ht
    rw [findNext_buckets] at ht
    rw [getIndex_congr (findNext_last s)]
    exact (hplaced ht).1
  · intro i
    rw [findNext_nonEmpty, findNext_buckets]
    exact hmarked i
  · intro i
    rw [findNext_buckets]
    exact hs.nodup i
  · intro i t ht
    rw [findNext_buckets] at ht
    exact findNext_next_le hl hplaced hmarked hnext ht

/-- The timers of the buckets after that of `now`, and the due ones of that bucket. -/
theorem WellFormed.expired_list (hs : WellFormed s) :
    let exp := (forEachSet s.nonEmpty (s.getIndex now + 1)).flatMap s.buckets ++
      (s.buckets (s.getIndex now)).filter (fun t => decide (t.timeout ≤ now))
    exp.Nodup ∧ ∀ t, t ∈ exp ↔ Mem t s ∧ t.timeout ≤ now := by
  intro exp
  have hdisj : ∀ {i j t}, t ∈ s.buckets i → t ∈ s.buckets j → i = j :=
    fun hi hj => (hs.placed hi).symm.trans (hs.placed hj)
  have hspliced : ∀ {t}, t ∈ (forEachSet s.nonEmpty (s.getIndex now + 1)).flatMap s.buckets ↔
      ∃ i, s.getIndex now < i ∧ t ∈ s.buckets i := by
    intro t
    rw [List.mem_flatMap]
    constructor
    · rintro ⟨i, hi, ht⟩
      exact ⟨i, (mem_forEachSet.mp hi).2.1, ht⟩
    · rintro ⟨i, hi, ht⟩
      refine ⟨i, mem_forEachSet.mpr ⟨hs.placed ht ▸ getIndex_lt _ _, hi, ?_⟩, ht⟩
      exact (hs.marked i).mpr (List.ne_nil_of_mem ht)
  constructor
  · refine List.nodup_append.mpr ⟨List.nodup_flatMap.mpr ⟨fun i _ => hs.nodup i, ?_⟩,
      (hs.nodup _).filter _, ?_⟩
    · refine (forEachSet_sorted _ _).imp fun {i j} hij t hi hj => ?_
      exact Nat.ne_of_lt hij (hdisj hi hj)
    · rintro t ht u hu rfl
      obtain ⟨i, hi, ht⟩ := hspliced.mp ht
      exact Nat.ne_of_gt hi (hdisj ht (List.mem_filter.mp hu).1)
  · intro t
    rw [List.mem_append, hspliced, List.mem_filter, decide_eq_true_iff]
    constructor
    · rintro (⟨i, hi, ht⟩ | ⟨ht, hdue⟩)
      · exact ⟨hs.mem_of_bucket ht, hs.due_of_index ht hi⟩
      · exact ⟨hs.mem_of_bucket ht, hdue⟩
    · rintro ⟨ht, hdue⟩
      rw [hs.mem_iff] at ht
      rcases Nat.lt_trichotomy (s.getIndex t.timeout) (s.getIndex now) with h | h | h
      · -- the timer is after `now`
        exfalso
        have hafter : s.last < t.timeout := by
          refine lt_of_not_le fun hc => ?_
          rw [getIndex_due hc] at h
          exact absurd (getIndex_lt now s) (Nat.not_lt.mpr h)
        have hnow : s.last < now := Int64.lt_of_lt_of_le hafter hdue
        exact not_le_of_lt (lt_of_index_lt hs.last_nonneg hafter hnow h) hdue
      · rw [h] at ht
        exact Or.inr ⟨ht, hdue⟩
      · exact Or.inl ⟨_, h, ht⟩

theorem Draining.mark (hs : Draining now index s) (b : Bool) :
    Draining now index { s with nonEmpty := Function.update s.nonEmpty index b } where
  now_nonneg := hs.now_nonneg
  last := hs.last
  placed := hs.placed
  rest := hs.rest
  fresh := hs.fresh
  marked i hi := by
    show Function.update s.nonEmpty index b i = true ↔ _
    rw [Function.update_of_ne hi]
    exact hs.marked i hi
  nodup := hs.nodup
  next_le := hs.next_le
  next_attained := hs.next_attained

/-- From the second loop of `expire` on. -/
theorem WellFormed.expired (hs : WellFormed s) {s₁ : TimerSet}
    (hb : ∀ i, s₁.buckets i = if s.getIndex now < i then [] else s.buckets i)
    (hdrain : Draining now (s.getIndex now) s₁) {exp : List Timer} {s₂ : TimerSet}
    (hd : Drained now (s.getIndex now)
      ((forEachSet s.nonEmpty (s.getIndex now + 1)).flatMap s.buckets) s₁ exp s₂) :
    Expired now s exp ({ s₂ with
      nonEmpty := Function.update s₂.nonEmpty (s.getIndex now)
        (!(s₂.buckets (s.getIndex now)).isEmpty) } : TimerSet).findNext := by
  have hself : s₁.buckets (s.getIndex now) = s.buckets (s.getIndex now) := by
    rw [hb, if_neg (Nat.lt_irrefl _)]
  have hmark : (!(s₂.buckets (s.getIndex now)).isEmpty) = false := by
    rw [hd.bucket]
    rfl
  rw [hmark]
  have hwf := (hd.draining.mark false).wellFormed hd.bucket (Function.update_self ..)
  obtain ⟨hnodup, hiff⟩ := hs.expired_list
  refine ⟨hwf, ?_, ?_, ?_, ?_⟩
  · rw [findNext_last]
    exact hd.draining.last
  · rw [hd.expired, hself]
    exact hnodup
  · intro t
    rw [hd.expired, hself]
    exact hiff t
  · intro t
    rw [hwf.mem_iff_exists, findNext_buckets]
    show (∃ i, t ∈ s₂.buckets i) ↔ _
    rw [hd.kept, hself]
    constructor
    · rintro (⟨i, hi, ht⟩ | ⟨ht, hlt⟩)
      · have hlt := (hdrain.placed hi ht).2
        rw [hb] at ht
        split at ht
        · exact absurd ht List.not_mem_nil
        · exact ⟨hs.mem_of_bucket ht, hlt⟩
      · exact ⟨hs.mem_of_bucket ht, hlt⟩
    · rintro ⟨ht, hlt⟩
      rw [hs.mem_iff] at ht
      have hle : ¬ s.getIndex now < s.getIndex t.timeout :=
        fun h => not_le_of_lt hlt (hs.due_of_index ht h)
      by_cases hi : s.getIndex t.timeout = s.getIndex now
      · rw [hi] at ht
        exact Or.inr ⟨ht, hlt⟩
      · refine Or.inl ⟨_, hi, ?_⟩
        rw [hb, if_neg hle]
        exact ht

/-- `expire(now)` returns the timers that are due, each once, and keeps all others. -/
theorem WellFormed.expire (hs : WellFormed s) (hnow : s.last ≤ now) :
    ∃ exp s', s.expire now = .ok (exp, s') ∧ Expired now s exp s' := by
  refine ⟨_, _, if_neg (fun h => not_le_of_lt h hnow), ?_⟩
  dsimp only
  rw [spliceBuckets_eq _ _ _ ((forEachSet_sorted _ _).imp Nat.ne_of_lt)]
  have hfar : ∀ {i}, s.nonEmpty i = true → i < nBuckets := fun {i} hm => by
    obtain ⟨t, ht⟩ := List.exists_mem_of_ne_nil _ ((hs.marked i).mp hm)
    exact hs.placed ht ▸ getIndex_lt _ _
  have hmem : ∀ {i}, i ∈ forEachSet s.nonEmpty (s.getIndex now + 1) ↔
      s.getIndex now < i ∧ s.nonEmpty i = true := by
    intro i
    rw [mem_forEachSet]
    exact ⟨fun h => h.2, fun h => ⟨hfar h.2, h⟩⟩
  have hsplice : ∀ {α : Type} (f : Nat → α) (x : α) (i : Nat),
      (s.getIndex now < i → s.nonEmpty i = false → f i = x) →
      (if i ∈ forEachSet s.nonEmpty (s.getIndex now + 1) then x else f i) =
        if s.getIndex now < i then x else f i := by
    intro α f x i hx
    by_cases hi : s.getIndex now < i
    · rw [if_pos hi]
      split
      · rfl
      · rename_i hc
        exact hx hi (by simpa using fun h => hc (hmem.mpr ⟨hi, h⟩))
    · rw [if_neg hi, if_neg fun h => hi (hmem.mp h).1]
  have hb := fun i => hsplice s.buckets [] i fun _ hm => by
    by_contra hne
    rw [(hs.marked i).mpr hne] at hm
    exact Bool.false_ne_true hm.symm
  have hm := fun i => hsplice s.nonEmpty false i fun _ hm => hm
  have hdrain : Draining now (s.getIndex now) { s with
      buckets := fun i => if i ∈ forEachSet s.nonEmpty (s.getIndex now + 1) then [] else s.buckets i
      nonEmpty := fun i =>
        if i ∈ forEachSet s.nonEmpty (s.getIndex now + 1) then false else s.nonEmpty i
      last := now
      next := Int64.maxValue } := hs.draining hnow hb (fun i _ => hm i) rfl rfl
  exact hs.expired hb hdrain (hdrain.drain _ rfl)

/-! ## Runs -/

/-- The timers that have been inserted and neither removed nor expired since. -/
def pending (live : List Timer) : Action → List Timer
  | .insert timer => live ++ [timer]
  | .remove timer => live.filter (· ≠ timer)
  | .expire now => live.filter fun timer => now < timer.timeout

/-- The set is well formed and holds the pending timers. -/
structure Holds (s : TimerSet) (live : List Timer) : Prop where
  wellFormed : WellFormed s
  mem : ∀ t, Mem t s ↔ t ∈ live

/-- An action on the set is the action on the pending timers. -/
theorem Holds.step {live : List Timer} (h : Holds s live) {a : Action} (hv : Valid s a) :
    ∃ s', step s a = .ok s' ∧ Holds s' (pending live a) := by
  cases a with
  | insert timer =>
    refine ⟨_, rfl, h.wellFormed.insert hv, fun t => ?_⟩
    rw [mem_insert, h.mem, pending, List.mem_append, List.mem_singleton, or_comm]
  | remove timer =>
    refine ⟨_, rfl, h.wellFormed.remove timer, fun t => ?_⟩
    rw [h.wellFormed.mem_remove, h.mem, pending, List.mem_filter, decide_eq_true_iff]
  | expire now =>
    obtain ⟨exp, s', he, hs'⟩ := h.wellFormed.expire hv
    refine ⟨s', by rw [TimerSet.step, he]; rfl, hs'.wellFormed, fun t => ?_⟩
    rw [hs'.kept, h.mem, pending, List.mem_filter, decide_eq_true_iff]

theorem Holds.run {live : List Timer} (h : Holds s live) {as : List Action}
    (hv : Run.Along TimerSet.step Valid s as) :
    ∃ s', run s as = .ok s' ∧ Holds s' (as.foldl pending live) := by
  induction as generalizing s live with
  | nil => exact ⟨s, rfl, h⟩
  | cons a as ih =>
    obtain ⟨t, ht, ht'⟩ := h.step hv.1
    obtain ⟨s', hr, hs'⟩ := ih ht' (hv.2 t ht)
    exact ⟨s', Run.run_cons_ok.mpr ⟨t, ht, hr⟩, hs'⟩

/-- In every run the set holds the pending timers, the time to call `expire` next is not after any
of them (unless that time has passed), and `expire(now)` returns those that are due, each once,
and keeps the others. -/
theorem run_expires (as : List Action) (hv : Run.Along step Valid {} as) :
    ∃ s, run {} as = .ok s ∧ (∀ t, Mem t s ↔ t ∈ as.foldl pending []) ∧
      (∀ t, Mem t s → s.getNextTimeout ≤ max s.last t.timeout) ∧
      ∀ now, s.last ≤ now → ∃ exp s', s.expire now = .ok (exp, s') ∧ exp.Nodup ∧
        (∀ t, t ∈ exp ↔ Mem t s ∧ t.timeout ≤ now) ∧
        ∀ t, Mem t s' ↔ Mem t s ∧ now < t.timeout := by
  have h₀ : Holds {} [] := by
    refine ⟨WellFormed.empty, fun t => ⟨?_, fun h => absurd h List.not_mem_nil⟩⟩
    rintro ⟨i, -, ht⟩
    exact ht
  obtain ⟨s, hr, hs⟩ := h₀.run hv
  refine ⟨s, hr, hs.mem, ?_, ?_⟩
  · intro t ht
    have hle : s.next ≤ t.timeout := by
      obtain ⟨i, -, ht⟩ := ht
      exact hs.wellFormed.next_le ht
    show (if s.last ≤ s.next then s.next else s.last) ≤
      if s.last ≤ t.timeout then t.timeout else s.last
    split
    · rename_i h
      rw [if_pos (Int64.le_trans h hle)]
      exact hle
    · split
      · assumption
      · exact Int64.le_refl _
  · intro now hnow
    obtain ⟨exp, s', he, hs'⟩ := hs.wellFormed.expire hnow
    exact ⟨exp, s', he, hs'.nodup, hs'.expired, hs'.kept⟩

/-- Three timers, one of them removed; the set moves to time 6 and to time 9. -/
theorem run_expires_moves :
    Run.Along step Valid {} [.insert ⟨0, 5⟩, .insert ⟨1, 9⟩, .insert ⟨2, 7⟩, .expire 6,
      .remove ⟨1, 9⟩, .expire 9] ∧
    ∃ s, run {} [.insert ⟨0, 5⟩, .insert ⟨1, 9⟩, .insert ⟨2, 7⟩, .expire 6,
      .remove ⟨1, 9⟩, .expire 9] = .ok s ∧ ¬ Mem ⟨2, 7⟩ s := by
  have hv : Run.Along step Valid {} [.insert ⟨0, 5⟩, .insert ⟨1, 9⟩, .insert ⟨2, 7⟩, .expire 6,
      .remove ⟨1, 9⟩, .expire 9] := by decide +kernel
  obtain ⟨s, hr, hm, -⟩ := run_expires _ hv
  refine ⟨hv, s, hr, fun h => ?_⟩
  exact absurd ((hm _).mp h) (by decide)

end TimerSet

end Seastar
