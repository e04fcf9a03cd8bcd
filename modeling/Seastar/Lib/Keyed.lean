import Mathlib.Algebra.BigOperators.Group.List.Basic
import Mathlib.Data.List.Find
import Mathlib.Data.List.Nodup

/-!
Lists whose elements have different keys: a key finds at most one element, and taking the element
of a key out leaves the others.
-/

namespace Lib.Keyed

variable {α κ M : Type} [DecidableEq κ] {f : α → κ} {l : List α} {a b : α} {k : κ}

/-- The elements are found by their keys. -/
theorem find?_eq_some (h : (l.map f).Nodup) :
    l.find? (fun x => f x = k) = some a ↔ a ∈ l ∧ f a = k := by
  constructor
  · intro hf
    exact ⟨List.mem_of_find?_eq_some hf, by simpa using List.find?_some hf⟩
  · rintro ⟨ha, hk⟩
    cases hf : l.find? (fun x => f x = k) with
    | none =>
      rw [List.find?_eq_none] at hf
      exact absurd hk (by simpa using hf a ha)
    | some b =>
      have hb : f b = k := by simpa using List.find?_some hf
      rw [List.inj_on_of_nodup_map h (List.mem_of_find?_eq_some hf) ha (hb.trans hk.symm)]

theorem find?_eq_none : l.find? (fun x => f x = k) = none ↔ ∀ a ∈ l, f a ≠ k := by
  simp

theorem mem_filter_ne : b ∈ l.filter (fun x => f x ≠ f a) ↔ b ∈ l ∧ f b ≠ f a := by
  simp

/-- The element of a key splits the list, and the sides are what is left without it. -/
theorem split (h : (l.map f).Nodup) (ha : a ∈ l) :
    ∃ l₁ l₂, l = l₁ ++ a :: l₂ ∧ l.filter (fun x => f x ≠ f a) = l₁ ++ l₂ := by
  obtain ⟨l₁, l₂, rfl⟩ := List.append_of_mem ha
  refine ⟨l₁, l₂, rfl, ?_⟩
  rw [List.map_append, List.map_cons, List.nodup_append] at h
  obtain ⟨-, h₂, h₁₂⟩ := h
  rw [List.nodup_cons] at h₂
  have hne₁ : ∀ x ∈ l₁, f x ≠ f a := by
    intro x hx
    exact h₁₂ _ (List.mem_map_of_mem hx) _ List.mem_cons_self
  have hne₂ : ∀ x ∈ l₂, f x ≠ f a := by
    intro x hx hxa
    exact h₂.1 (hxa ▸ List.mem_map_of_mem hx)
  rw [List.filter_append, List.filter_cons_of_neg (by simp),
    List.filter_eq_self.mpr (by simpa using hne₁), List.filter_eq_self.mpr (by simpa using hne₂)]

theorem sum_filter_ne [AddCommMonoid M] (h : (l.map f).Nodup) (ha : a ∈ l) (g : α → M) :
    (l.map g).sum = ((l.filter fun x => f x ≠ f a).map g).sum + g a := by
  obtain ⟨l₁, l₂, hl, hf⟩ := split h ha
  rw [hf, hl]
  simp only [List.map_append, List.map_cons, List.sum_append, List.sum_cons]
  rw [add_assoc, add_comm (l₂.map g).sum]

theorem nodup_filter {κ' : Type} {g : α → κ'} (p : α → Bool) (h : (l.map g).Nodup) :
    ((l.filter p).map g).Nodup := h.sublist (List.filter_sublist.map g)

theorem nodup_snoc {κ' : Type} {g : α → κ'} (h : (l.map g).Nodup) (ha : ∀ x ∈ l, g x ≠ g a) :
    ((l ++ [a]).map g).Nodup := by
  rw [List.map_append, List.nodup_append]
  refine ⟨h, List.nodup_singleton _, ?_⟩
  intro x hx y hy
  obtain ⟨b, hb, rfl⟩ := List.mem_map.mp hx
  rw [List.mem_singleton.mp hy]
  exact ha b hb

end Lib.Keyed
