import Mathlib.Data.List.Basic
import Mathlib.Data.List.Induction

/-!
Histories: lists in which each entry stands in a relation to those before it. What is asked of an
entry may be replaced by something else that is the same as long as the entries before it are as
they should be.
-/

namespace Lib

variable {α β : Type} {R Q : List α → α → Prop} {l l' : List α} {a b x : α}

/-- Every entry is in the relation to the entries before it. -/
def History (R : List α → α → Prop) (l : List α) : Prop :=
  ∀ pre x post, l = pre ++ x :: post → R pre x

/-- An entry of two lists in a row is in the first, or in the second. -/
theorem split_append {pre post : List α} (h : l ++ l' = pre ++ x :: post) :
    (∃ m, l = pre ++ x :: m) ∨ ∃ m, pre = l ++ m ∧ l' = m ++ x :: post := by
  rcases List.append_eq_append_iff.mp h with ⟨m, hpre, hm⟩ | ⟨m, hl, hm⟩
  · exact Or.inr ⟨m, hpre, hm⟩
  · cases m with
    | nil =>
      rw [List.append_nil] at hl
      exact Or.inr ⟨[], by rw [List.append_nil, hl], hm.symm⟩
    | cons y m =>
      obtain ⟨rfl, -⟩ := List.cons.inj hm
      exact Or.inl ⟨m, hl⟩

namespace History

theorem nil : History R [] := by
  intro pre x post h
  exact absurd h.symm (List.append_ne_nil_of_right_ne_nil _ (List.cons_ne_nil _ _))

/-- A history and one that goes on from it. -/
theorem append : History R (l ++ l') ↔ History R l ∧ History (fun pre x => R (l ++ pre) x) l' := by
  constructor
  · intro h
    constructor
    · intro pre x post hl
      exact h pre x (post ++ l') (by rw [hl, List.append_assoc, List.cons_append])
    · intro pre x post hl
      exact h (l ++ pre) x post (by rw [hl, List.append_assoc])
  · rintro ⟨h, h'⟩ pre x post hl
    rcases split_append hl with ⟨m, hpre⟩ | ⟨m, rfl, hm⟩
    · exact h pre x m hpre
    · exact h' m x post hm

theorem singleton : History R [x] ↔ R [] x := by
  constructor
  · intro h
    exact h [] x [] rfl
  · intro h pre y post hl
    cases pre with
    | nil =>
      obtain ⟨rfl, -⟩ := List.cons.inj hl
      exact h
    | cons z pre =>
      have := congrArg List.length hl
      simp at this

theorem concat : History R (l ++ [x]) ↔ History R l ∧ R l x := by
  rw [append, singleton, List.append_nil]

theorem cons : History R (x :: l) ↔ R [] x ∧ History (fun pre y => R (x :: pre) y) l := by
  rw [← List.singleton_append, append, singleton]
  rfl

/-- Two relations make the same histories if they agree on each entry whose history is right. -/
theorem congr (h : ∀ pre x post, l = pre ++ x :: post → History Q pre → (R pre x ↔ Q pre x)) :
    History R l ↔ History Q l := by
  induction l using List.reverseRecOn with
  | nil => exact ⟨fun _ => nil, fun _ => nil⟩
  | append_singleton l x ih =>
    have hl := ih fun pre y post hpre => h pre y (post ++ [x]) (by simp [hpre])
    rw [concat, concat, hl]
    exact and_congr_right fun hQ => h l x [] rfl hQ

theorem and {S : List α → α → Prop} : History (fun pre x => R pre x ∧ S pre x) l ↔
    History R l ∧ History S l := by
  constructor
  · intro h
    exact ⟨fun pre x post hl => (h pre x post hl).1, fun pre x post hl => (h pre x post hl).2⟩
  · rintro ⟨hR, hS⟩ pre x post hl
    exact ⟨hR pre x post hl, hS pre x post hl⟩

/-- The history of what the entries consist of. -/
theorem flatMap {S : List β → β → Prop} (f : α → List β) : History S (l.flatMap f) ↔
    History (fun pre x => History (fun ds y => S (pre.flatMap f ++ ds) y) (f x)) l := by
  induction l using List.reverseRecOn with
  | nil => exact ⟨fun _ => nil, fun _ => nil⟩
  | append_singleton l x ih =>
    rw [concat, List.flatMap_append, append, ih, List.flatMap_singleton]

end History

section Since

variable [DecidableEq α]

/-- Of the `a`s and `b`s of the list, the last is an `a`. -/
def Since (a b : α) (l : List α) : Prop :=
  (l.filter fun x => x = a ∨ x = b).getLast? = some a

theorem since_opened (l : List α) : Since a b (l ++ [a]) := by
  rw [Since, List.filter_append, List.filter_cons_of_pos (by simp)]
  simp

theorem Since.concat (h : Since a b l) (hx : x ≠ b) : Since a b (l ++ [x]) := by
  by_cases hxa : x = a
  · subst hxa
    exact since_opened l
  · rw [Since, List.filter_append, List.filter_cons_of_neg (by simp [hxa, hx]), List.filter_nil,
      List.append_nil]
    exact h

end Since

end Lib
