import Mathlib.Data.List.Basic

/-!
Lists that are joined with a separator, and split at it again. Splitting never gives the empty
list of parts, so the empty list joins to what a single empty part joins to.
-/

namespace Lib.Separated

variable {α : Type} [DecidableEq α] {sep : α}

/-- The parts with the separator between them. -/
def join (sep : α) : List (List α) → List α
  | [] => []
  | [part] => part
  | part :: parts => part ++ sep :: join sep parts

/-- The parts between the separators. -/
def split (sep : α) : List α → List (List α)
  | [] => [[]]
  | a :: as =>
    if a = sep then [] :: split sep as
    else
      match split sep as with
      | [] => [[a]]
      | part :: parts => (a :: part) :: parts

theorem split_ne_nil (as : List α) : split sep as ≠ [] := by
  cases as with
  | nil => simp [split]
  | cons a as =>
    unfold split
    split
    · simp
    · split <;> simp

/-- What comes in front of a separator is a part. -/
theorem split_append_sep {part : List α} (h : sep ∉ part) (as : List α) :
    split sep (part ++ sep :: as) = part :: split sep as := by
  induction part with
  | nil => simp [split]
  | cons a part ih =>
    have ha : a ≠ sep := fun e => h (by simp [e])
    have hpart : sep ∉ part := fun e => h (by simp [e])
    simp [split, ha, ih hpart]

theorem split_part {part : List α} (h : sep ∉ part) : split sep part = [part] := by
  induction part with
  | nil => simp [split]
  | cons a part ih =>
    have ha : a ≠ sep := fun e => h (by simp [e])
    have hpart : sep ∉ part := fun e => h (by simp [e])
    simp [split, ha, ih hpart]

/-- Parts without the separator in them are found again. -/
theorem split_join {parts : List (List α)} (h : ∀ part ∈ parts, sep ∉ part) (hne : parts ≠ []) :
    split sep (join sep parts) = parts := by
  induction parts with
  | nil => exact absurd rfl hne
  | cons part parts ih =>
    cases parts with
    | nil => exact split_part (h part (by simp))
    | cons next parts =>
      rw [join, split_append_sep (h part (by simp))]
      · rw [ih (fun p hp => h p (List.mem_cons_of_mem part hp)) (by simp)]
      · simp

/-- Two texts share the part in which they meet. -/
theorem split_append {as bs part next : List α} {parts nexts : List (List α)}
    (ha : split sep as = parts ++ [part]) (hb : split sep bs = next :: nexts) :
    split sep (as ++ bs) = parts ++ (part ++ next) :: nexts := by
  induction as generalizing parts part with
  | nil =>
    cases parts with
    | nil =>
      obtain rfl := (List.cons.inj ha).1
      exact hb
    | cons p parts => cases parts <;> cases ha
  | cons a as ih =>
    rw [List.cons_append, split]
    rw [split] at ha
    split
    · rename_i h
      rw [if_pos h] at ha
      cases parts with
      | nil => exact absurd (List.cons.inj ha).2 (split_ne_nil as)
      | cons p parts =>
        obtain ⟨hp, hparts⟩ := List.cons.inj ha
        rw [ih hparts, hp]
        rfl
    · rename_i h
      rw [if_neg h] at ha
      cases hs : split sep as with
      | nil => exact absurd hs (split_ne_nil as)
      | cons q qs =>
        rw [hs] at ha
        simp only at ha
        cases parts with
        | nil =>
          obtain ⟨rfl, rfl⟩ := List.cons.inj ha
          rw [@ih _ [] hs]
          rfl
        | cons p parts =>
          obtain ⟨rfl, rfl⟩ := List.cons.inj ha
          rw [@ih _ (q :: parts) hs]
          rfl

theorem notMem_of_mem_split {as part : List α} (h : part ∈ split sep as) : sep ∉ part := by
  induction as generalizing part with
  | nil =>
    obtain rfl := List.mem_singleton.mp h
    simp
  | cons a as ih =>
    rw [split] at h
    split at h
    · rcases List.mem_cons.mp h with rfl | h
      · simp
      · exact ih h
    · rename_i ha
      cases hs : split sep as with
      | nil => exact absurd hs (split_ne_nil as)
      | cons p ps =>
        rw [hs] at h ih
        simp only at h
        rcases List.mem_cons.mp h with rfl | h
        · rw [List.mem_cons, not_or]
          exact ⟨Ne.symm ha, ih List.mem_cons_self⟩
        · exact ih (List.mem_cons_of_mem p h)

/-- Between the parts there is one separator less than there are parts. -/
theorem count_join {parts : List (List α)} (h : ∀ part ∈ parts, sep ∉ part) :
    (join sep parts).count sep = parts.length - 1 := by
  induction parts with
  | nil => rfl
  | cons part parts ih =>
    have hpart := List.count_eq_zero_of_not_mem (h part (by simp))
    cases parts with
    | nil => exact hpart
    | cons next parts =>
      have hrest := ih fun p hp => h p (List.mem_cons_of_mem part hp)
      rw [join, List.count_append, hpart, List.count_cons_self, hrest]
      · simp
      · simp

end Lib.Separated
