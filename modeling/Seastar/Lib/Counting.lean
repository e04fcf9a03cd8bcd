import Mathlib.Algebra.BigOperators.Group.List.Basic
import Mathlib.Algebra.Ring.Nat
import Mathlib.Data.List.Count

/-!
Counting and summing over a list of which one element changes.
-/

namespace Lib.Counting

variable {α : Type} {l : List α} {i : Nat} {x : α}

/-- What is summed over a list, where one element is replaced. -/
theorem sum_map_set (f : α → Nat) (h : l[i]? = some x) (y : α) :
    ((l.set i y).map f).sum + f x = (l.map f).sum + f y := by
  induction l generalizing i with
  | nil => cases h
  | cons a l ih =>
    cases i with
    | zero =>
      obtain rfl := Option.some.inj h
      rw [List.set_cons_zero, List.map_cons, List.sum_cons, List.map_cons, List.sum_cons]
      omega
    | succ i =>
      have := ih h
      rw [List.set_cons_succ, List.map_cons, List.sum_cons, List.map_cons, List.sum_cons]
      omega

/-- What is counted in a list, where one element is replaced. -/
theorem countP_set_add (p : α → Bool) (h : l[i]? = some x) (y : α) :
    (l.set i y).countP p + (if p x then 1 else 0) = l.countP p + if p y then 1 else 0 := by
  obtain ⟨hi, rfl⟩ := List.getElem?_eq_some_iff.mp h
  have hset := List.countP_set (p := p) (a := y) hi
  have hle := List.boole_getElem_le_countP (p := p) hi
  omega

theorem count_set_add [BEq α] (z : α) (h : l[i]? = some x) (y : α) :
    (l.set i y).count z + (if x == z then 1 else 0) = l.count z + if y == z then 1 else 0 :=
  countP_set_add (· == z) h y

/-- What is counted in a list, where one element is taken out. -/
theorem countP_eraseIdx_add (p : α → Bool) (h : l[i]? = some x) :
    (l.eraseIdx i).countP p + (if p x then 1 else 0) = l.countP p := by
  induction l generalizing i with
  | nil => cases h
  | cons a l ih =>
    cases i with
    | zero =>
      obtain rfl := Option.some.inj h
      rw [List.eraseIdx_cons_zero, List.countP_cons]
    | succ i =>
      have := ih h
      rw [List.eraseIdx_cons_succ, List.countP_cons, List.countP_cons]
      omega

theorem countP_erase_add [DecidableEq α] (p : α → Bool) (h : x ∈ l) :
    (l.erase x).countP p + (if p x then 1 else 0) = l.countP p := by
  have herase := List.countP_erase p l x
  by_cases hp : p x = true
  · have hpos : 0 < l.countP p := List.countP_pos_iff.mpr ⟨x, h, hp⟩
    rw [if_pos ⟨h, hp⟩] at herase
    rw [if_pos hp]
    omega
  · rw [if_neg fun hc => hp hc.2] at herase
    rw [if_neg hp]
    exact herase

/-- Fewer elements meet the stronger condition, when one meets only the weaker. -/
theorem countP_lt_countP {p q : α → Bool} (hpq : ∀ x ∈ l, p x → q x) (hx : x ∈ l) (hq : q x)
    (hp : ¬ p x) : l.countP p < l.countP q := by
  obtain ⟨l₁, l₂, rfl⟩ := List.append_of_mem hx
  have h₁ := List.countP_mono_left fun y hy => hpq y (List.mem_append_left _ hy)
  have h₂ := List.countP_mono_left fun y hy =>
    hpq y (List.mem_append_right _ (List.mem_cons_of_mem _ hy))
  rw [List.countP_append, List.countP_append, List.countP_cons, List.countP_cons, if_pos hq, if_neg hp]
  omega

end Lib.Counting
