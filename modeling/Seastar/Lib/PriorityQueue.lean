import Mathlib.Data.List.Pairwise
import Mathlib.Order.Lattice

/-!
A priority queue as the list of its elements in the order in which they are popped. Keys
are compared when an element is pushed; elements with equal keys may come in any order. The
keys may change while the elements wait, as long as their order does not.
-/

namespace Lib.PriorityQueue

variable {α κ : Type} [LinearOrder κ]

/-- The elements are in the order of their keys. -/
def Ordered (key : α → κ) (l : List α) : Prop := l.Pairwise fun x y => key x ≤ key y

/-- A new element goes behind those with smaller keys, and behind some of those with its own. -/
def push (key : α → κ) (x : α) : Nat → List α → List α
  | _, [] => [x]
  | behind, y :: ys =>
    if key y < key x then y :: push key x behind ys
    else if key y = key x ∧ 0 < behind then y :: push key x (behind - 1) ys
    else x :: y :: ys

variable {key key' : α → κ} {x y : α} {l : List α}

theorem push_perm (key : α → κ) (x : α) (behind : Nat) (l : List α) :
    (push key x behind l).Perm (x :: l) := by
  induction l generalizing behind with
  | nil => exact List.Perm.refl _
  | cons y ys ih =>
    rw [push]
    split
    · exact ((ih _).cons y).trans (List.Perm.swap x y ys)
    · split
      · exact ((ih _).cons y).trans (List.Perm.swap x y ys)
      · exact List.Perm.refl _

theorem mem_push {behind : Nat} : y ∈ push key x behind l ↔ y = x ∨ y ∈ l := by
  rw [(push_perm key x behind l).mem_iff, List.mem_cons]

theorem Ordered.push (h : Ordered key l) (x : α) (behind : Nat) :
    Ordered key (push key x behind l) := by
  induction l generalizing behind with
  | nil => exact List.pairwise_singleton _ _
  | cons y ys ih =>
    obtain ⟨hy, hys⟩ := List.pairwise_cons.mp h
    -- `y` stays in front of what is pushed behind it
    have hbehind : ∀ m, key y ≤ key x → Ordered key (y :: PriorityQueue.push key x m ys) := by
      intro m hle
      apply List.pairwise_cons.mpr ⟨_, ih hys m⟩
      intro z hz
      rcases mem_push.mp hz with rfl | hz
      · exact hle
      · exact hy z hz
    rw [PriorityQueue.push]
    split
    · rename_i hlt
      exact hbehind _ (le_of_lt hlt)
    · rename_i hge
      split
      · rename_i heq
        exact hbehind _ (le_of_eq heq.1)
      · apply List.pairwise_cons.mpr ⟨_, h⟩
        intro z hz
        have hle : key x ≤ key y := not_lt.mp hge
        rcases List.mem_cons.mp hz with rfl | hz
        · exact hle
        · exact le_trans hle (hy z hz)

/-- The first element has the smallest key. -/
theorem Ordered.head_le (h : Ordered key (x :: l)) (hy : y ∈ x :: l) : key x ≤ key y := by
  rcases List.mem_cons.mp hy with rfl | hy
  · exact le_refl _
  · exact (List.pairwise_cons.mp h).1 y hy

theorem Ordered.tail (h : Ordered key l) : Ordered key l.tail :=
  List.Pairwise.sublist (List.tail_sublist l) h

/-- Other keys in the same order. -/
theorem Ordered.congr (h : Ordered key l)
    (hle : ∀ x ∈ l, ∀ y ∈ l, key x ≤ key y → key' x ≤ key' y) : Ordered key' l :=
  List.Pairwise.imp_of_mem (fun hx hy => hle _ hx _ hy) h

end Lib.PriorityQueue
