import Mathlib.Data.List.Basic

/-!
Paths that are resolved by their components alone: a component stays, goes up or goes down. Going
up from the root of an absolute path stays there; from where a relative path starts it is counted.

Read on its own, a list of components goes up so many steps and then down some names (`climb`). So
whether it leaves a place does not need the place it starts from to be followed.
-/

namespace Lib.LexicalPath

variable {ν : Type}

/-- What a component of a path does. -/
inductive Move (ν : Type)
  | stay
  | up
  | down (name : ν)
  deriving DecidableEq, Repr

/-- Where a path leads: the names from its start, or from so many places above it. -/
structure Place (ν : Type) where
  absolute : Bool
  ups : Nat := 0
  names : List ν := []
  deriving DecidableEq, Repr

namespace Place

/-- One component. -/
def move (p : Place ν) : Move ν → Place ν
  | .stay => p
  | .up =>
    if p.names.isEmpty then if p.absolute then p else { p with ups := p.ups + 1 }
    else { p with names := p.names.dropLast }
  | .down name => { p with names := p.names ++ [name] }

/-- All components. -/
def follow (p : Place ν) (moves : List (Move ν)) : Place ν := moves.foldl move p

/-- The place `q` is `p` or lies below it. -/
def Below (p q : Place ν) : Prop :=
  q.absolute = p.absolute ∧ q.ups = p.ups ∧ p.names <+: q.names

instance [DecidableEq ν] (p q : Place ν) : Decidable (p.Below q) :=
  inferInstanceAs (Decidable (_ ∧ _ ∧ _))

theorem Below.refl (p : Place ν) : p.Below p := ⟨rfl, rfl, List.prefix_rfl⟩

/-- Further down it is still below. -/
theorem Below.down {p q : Place ν} (h : p.Below q) (name : ν) : p.Below (q.move (.down name)) :=
  ⟨h.1, h.2.1, h.2.2.trans (List.prefix_append _ _)⟩

@[simp] theorem follow_cons (p : Place ν) (m : Move ν) (ms : List (Move ν)) :
    p.follow (m :: ms) = (p.move m).follow ms := rfl

theorem follow_append (p : Place ν) (ms ns : List (Move ν)) :
    p.follow (ms ++ ns) = (p.follow ms).follow ns := List.foldl_append

theorem move_absolute (p : Place ν) (m : Move ν) : (p.move m).absolute = p.absolute := by
  cases m with
  | stay => rfl
  | up =>
    rw [move]
    split
    · split <;> rfl
    · rfl
  | down name => rfl

theorem follow_absolute (p : Place ν) (ms : List (Move ν)) :
    (p.follow ms).absolute = p.absolute := by
  induction ms generalizing p with
  | nil => rfl
  | cons m ms ih => exact (ih _).trans (p.move_absolute m)

end Place

/-- The components on their own: how far up, and then down which names. -/
def climb (moves : List (Move ν)) : Place ν := Place.follow { absolute := false } moves

/-- A climb from a place. -/
def Place.compose (p r : Place ν) : Place ν where
  absolute := p.absolute
  ups := if p.absolute then p.ups else p.ups + (r.ups - p.names.length)
  names := p.names.take (p.names.length - r.ups) ++ r.names

theorem Place.compose_move (p r : Place ν) (hr : r.absolute = false) (m : Move ν) :
    (p.compose r).move m = p.compose (r.move m) := by
  cases m with
  | stay => rfl
  | down name => simp [move, compose]
  | up =>
    obtain ⟨a, u, ns⟩ := p
    obtain ⟨b, k, rs⟩ := r
    obtain rfl : b = false := hr
    rcases List.eq_nil_or_concat rs with rfl | ⟨rs, n, rfl⟩
    · -- the climb goes up one more
      have hr : Place.move { absolute := false, ups := k, names := ([] : List ν) } .up =
          { absolute := false, ups := k + 1 } := rfl
      rw [hr]
      by_cases hk : ns.length ≤ k
      · have htake : ns.take (ns.length - k) = [] := by
          rw [Nat.sub_eq_zero_of_le hk, List.take_zero]
        have htake' : ns.take (ns.length - (k + 1)) = [] := by
          rw [Nat.sub_eq_zero_of_le (Nat.le_succ_of_le hk), List.take_zero]
        cases a with
        | true => simp [move, compose, htake, htake']
        | false =>
          simp only [move, compose, htake, htake', List.append_nil, List.isEmpty_nil, if_true,
            Bool.false_eq_true, if_false]
          congr 1
          omega
      · have hlast : (ns.take (ns.length - k)).dropLast = ns.take (ns.length - (k + 1)) := by
          rw [List.dropLast_eq_take, List.take_take, List.length_take]
          congr 1
          omega
        have hne : (ns.take (ns.length - k)).isEmpty = false := by
          rw [List.isEmpty_eq_false_iff, ← List.length_pos_iff, List.length_take]
          omega
        simp only [move, compose, List.append_nil, hne, hlast, Bool.false_eq_true, if_false]
        congr 1
        split
        · rfl
        · omega
    · simp [move, compose]

/-- To follow the components is to climb as they do. -/
theorem Place.follow_eq_compose (p : Place ν) (moves : List (Move ν)) :
    p.follow moves = p.compose (climb moves) := by
  have hall : ∀ r : Place ν, r.absolute = false →
      (p.compose r).follow moves = p.compose (r.follow moves) := by
    induction moves with
    | nil => exact fun _ _ => rfl
    | cons m moves ih =>
      intro r hr
      rw [follow_cons, follow_cons, compose_move p r hr m, ih]
      rw [move_absolute, hr]
  refine Eq.trans ?_ (hall { absolute := false } rfl)
  congr 1
  obtain ⟨a, u, ns⟩ := p
  simp [compose]

/-- A text of components whose climb starts with the names it leaves. -/
def Returns (p : Place ν) (m : Move ν) (moves : List (Move ν)) : Prop :=
  (p.absolute = true ∨ (p.move m).ups = p.ups + ((climb moves).ups - p.names.length)) ∧
    (p.move m).names.drop (p.names.length - (climb moves).ups) <+: (climb moves).names

instance [DecidableEq ν] (p : Place ν) (m : Move ν) (moves : List (Move ν)) :
    Decidable (Returns p m moves) := inferInstanceAs (Decidable (_ ∧ _))

theorem isPrefix_append_iff {l r s : List ν} (h : l.take r.length = r.take l.length) :
    l <+: r ++ s ↔ l.drop r.length <+: s := by
  rcases Nat.le_total l.length r.length with hle | hle
  · rw [List.take_of_length_le hle] at h
    rw [List.drop_of_length_le hle]
    refine iff_of_true ?_ List.nil_prefix
    rw [h]
    exact (List.take_prefix _ _).trans (List.prefix_append _ _)
  · rw [List.take_of_length_le hle] at h
    conv_lhs => rw [← List.take_append_drop r.length l, h]
    exact List.prefix_append_right_inj r

/-- One component changes nothing but the end of the names. -/
theorem Place.take_move (p : Place ν) (m : Move ν) {j : Nat} (hj : j ≤ p.names.length) :
    (p.move m).names.take j = (p.names.take j).take (p.move m).names.length := by
  obtain ⟨a, u, ns⟩ := p
  change j ≤ ns.length at hj
  cases m with
  | stay =>
    change ns.take j = (ns.take j).take ns.length
    rw [List.take_take, Nat.min_eq_right hj]
  | down name =>
    change (ns ++ [name]).take j = (ns.take j).take (ns ++ [name]).length
    rw [List.take_append_of_le_length hj, List.take_take, List.length_append,
      Nat.min_eq_right (Nat.le_add_right_of_le hj)]
  | up =>
    rw [move]
    cases ns with
    | nil => cases a <;> simp
    | cons n ns =>
      change (n :: ns).dropLast.take j = ((n :: ns).take j).take (n :: ns).dropLast.length
      rw [List.dropLast_eq_take, List.take_take, List.take_take, List.length_take, Nat.min_comm,
        Nat.min_eq_left (Nat.sub_le (n :: ns).length 1)]

theorem Place.move_ups (p : Place ν) (m : Move ν) (h : p.absolute = true) :
    (p.move m).ups = p.ups := by
  cases m with
  | stay => rfl
  | down name => rfl
  | up =>
    rw [move, if_pos h]
    split <;> rfl

/-- One component further than `p` is a place; the components `moves` lead from `p` to that place
or below it exactly when their climb returns to it. -/
theorem below_follow_iff (p : Place ν) (m : Move ν) (moves : List (Move ν)) :
    (p.move m).Below (p.follow moves) ↔ Returns p m moves := by
  have hlen : (p.names.take (p.names.length - (climb moves).ups)).length =
      p.names.length - (climb moves).ups := by
    rw [List.length_take, Nat.min_eq_left (Nat.sub_le _ _)]
  have hnames := isPrefix_append_iff (l := (p.move m).names)
    (r := p.names.take (p.names.length - (climb moves).ups)) (s := (climb moves).names)
    (by rw [hlen]; exact p.take_move m (Nat.sub_le _ _))
  rw [hlen] at hnames
  have habs : (p.compose (climb moves)).absolute = (p.move m).absolute := (p.move_absolute m).symm
  rw [p.follow_eq_compose, Returns, ← hnames, Place.Below, and_iff_right habs]
  refine and_congr_left fun _ => ?_
  change (if p.absolute then p.ups else p.ups + _) = _ ↔ _
  cases ha : p.absolute with
  | true => exact iff_of_true (p.move_ups m ha).symm (Or.inl rfl)
  | false => simp [eq_comm]

end Lib.LexicalPath
