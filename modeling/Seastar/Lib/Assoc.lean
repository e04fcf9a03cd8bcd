import Mathlib.Data.List.Nodup

/-!
Association lists as tables: at most one entry for each key, values replaced in
place, entries erased by key. An entry splits the table around it, and what is
counted over a table is counted over the two sides.
-/

namespace Lib.Assoc

variable {κ ν : Type} {k j : κ} {v w : ν} {l l₁ l₂ : List (κ × ν)}

/-- Every key has one entry. -/
def Keyed (l : List (κ × ν)) : Prop := (l.map Prod.fst).Nodup

/-- The entry of `k` splits the table, and stands in neither side. -/
structure Split (k : κ) (v : ν) (l l₁ l₂ : List (κ × ν)) : Prop where
  eq : l = l₁ ++ (k, v) :: l₂
  left : ∀ e ∈ l₁, e.1 ≠ k
  right : ∀ e ∈ l₂, e.1 ≠ k

/-- What is counted over a table is counted over its sides and the entry between them. -/
theorem Split.countP (h : Split k v l l₁ l₂) (p : κ × ν → Bool) :
    l.countP p = (l₁ ++ l₂).countP p + if p (k, v) then 1 else 0 := by
  rw [h.eq, List.countP_append, List.countP_cons, List.countP_append]
  omega

theorem Split.forall_mem (h : Split k v l l₁ l₂) {P : κ × ν → Prop} :
    (∀ e ∈ l, P e) ↔ P (k, v) ∧ ∀ e ∈ l₁ ++ l₂, P e := by
  rw [h.eq]
  simp only [List.mem_append, List.mem_cons]
  constructor
  · intro hall
    exact ⟨hall _ (Or.inr (Or.inl rfl)), fun e he => hall e (he.imp id Or.inr)⟩
  · rintro ⟨hk, hall⟩ e (he | rfl | he)
    · exact hall e (Or.inl he)
    · exact hk
    · exact hall e (Or.inr he)

variable [DecidableEq κ]

/-- Replace the value of a key. -/
def set (k : κ) (v : ν) (l : List (κ × ν)) : List (κ × ν) :=
  l.map fun e => if e.1 = k then (k, v) else e

/-- Give a key its value, as a new entry if it has none. -/
def insert (k : κ) (v : ν) (l : List (κ × ν)) : List (κ × ν) :=
  if (l.lookup k).isSome then set k v l else l ++ [(k, v)]

/-- Give keys their values, one after the other. -/
def insertAll (m l : List (κ × ν)) : List (κ × ν) := m.foldl (fun t e => insert e.1 e.2 t) l

/-- Drop the entry of a key. -/
def erase (k : κ) (l : List (κ × ν)) : List (κ × ν) := l.filter fun e => e.1 ≠ k

theorem mem_of_lookup (h : l.lookup k = some v) : (k, v) ∈ l := by
  induction l with
  | nil => cases h
  | cons e l ih =>
    obtain ⟨j, w⟩ := e
    rw [List.lookup_cons] at h
    by_cases hj : k = j
    · rw [beq_iff_eq.mpr hj] at h
      obtain rfl := Option.some.inj h
      rw [hj]
      exact List.mem_cons_self
    · rw [beq_eq_false_iff_ne.mpr hj] at h
      exact List.mem_cons_of_mem _ (ih h)

theorem lookup_eq_none : l.lookup k = none ↔ ∀ e ∈ l, e.1 ≠ k := by
  rw [List.lookup_eq_none_iff]
  refine forall₂_congr fun e _ => ?_
  rw [bne_iff_ne, ne_comm]

/-- A key that is looked up with success splits a table. -/
theorem Keyed.split (hl : Keyed l) (h : l.lookup k = some v) : ∃ l₁ l₂, Split k v l l₁ l₂ := by
  obtain ⟨l₁, l₂, rfl⟩ := List.append_of_mem (mem_of_lookup h)
  rw [Keyed, List.map_append, List.map_cons, List.nodup_middle] at hl
  have hk := (List.nodup_cons.mp hl).1
  rw [← List.map_append] at hk
  refine ⟨l₁, l₂, rfl, fun e he hek => hk ?_, fun e he hek => hk ?_⟩
  · exact List.mem_map.mpr ⟨e, List.mem_append_left _ he, hek⟩
  · exact List.mem_map.mpr ⟨e, List.mem_append_right _ he, hek⟩

theorem set_of_notMem (h : ∀ e ∈ l, e.1 ≠ k) : set k v l = l := by
  induction l with
  | nil => rfl
  | cons e l ih =>
    rw [set, List.map_cons, if_neg (h e List.mem_cons_self)]
    exact congrArg (e :: ·) (ih fun d hd => h d (List.mem_cons_of_mem _ hd))

theorem erase_of_notMem (h : ∀ e ∈ l, e.1 ≠ k) : erase k l = l :=
  List.filter_eq_self.mpr fun e he => decide_eq_true (h e he)

theorem Split.set (h : Split k v l l₁ l₂) (w : ν) : Split k w (set k w l) l₁ l₂ := by
  refine ⟨?_, h.left, h.right⟩
  have h₁ := set_of_notMem (v := w) h.left
  have h₂ := set_of_notMem (v := w) h.right
  unfold Assoc.set at h₁ h₂ ⊢
  rw [h.eq, List.map_append, List.map_cons, h₁, h₂, if_pos rfl]

theorem Split.erase (h : Split k v l l₁ l₂) : erase k l = l₁ ++ l₂ := by
  have h₁ := erase_of_notMem h.left
  have h₂ := erase_of_notMem h.right
  unfold Assoc.erase at h₁ h₂ ⊢
  rw [h.eq, List.filter_append, List.filter_cons, h₁, h₂, if_neg (by simp)]

theorem set_keys (k : κ) (v : ν) (l : List (κ × ν)) : (set k v l).map Prod.fst = l.map Prod.fst := by
  rw [set, List.map_map]
  refine List.map_congr_left fun e _ => ?_
  by_cases he : e.1 = k
  · simp [he]
  · simp [he]

theorem Keyed.set (h : Keyed l) (k : κ) (v : ν) : Keyed (set k v l) := by
  rw [Keyed, set_keys]
  exact h

theorem Keyed.erase (h : Keyed l) (k : κ) : Keyed (erase k l) :=
  h.sublist (List.filter_sublist.map _)

theorem Keyed.concat (h : Keyed l) (hk : l.lookup k = none) (v : ν) : Keyed (l ++ [(k, v)]) := by
  rw [Keyed, List.map_append, List.nodup_append]
  refine ⟨h, List.nodup_singleton _, fun a ha b hb => ?_⟩
  obtain ⟨e, he, rfl⟩ := List.mem_map.mp ha
  obtain rfl := List.mem_singleton.mp hb
  exact lookup_eq_none.mp hk e he

theorem lookup_set (k j : κ) (v : ν) (l : List (κ × ν)) :
    (set k v l).lookup j = if j = k then (l.lookup k).map fun _ => v else l.lookup j := by
  induction l with
  | nil => simp [set]
  | cons e l ih =>
    obtain ⟨i, w⟩ := e
    have hset : set k v ((i, w) :: l) = (if i = k then (k, v) else (i, w)) :: set k v l := rfl
    rw [hset]
    by_cases hj : j = k
    · rw [if_pos hj] at ih ⊢
      by_cases hi : i = k
      · rw [if_pos hi, hj, hi, List.lookup_cons_self, List.lookup_cons_self]
        rfl
      · have hki : (k == i) = false := beq_eq_false_iff_ne.mpr (Ne.symm hi)
        rw [if_neg hi, hj, List.lookup_cons, List.lookup_cons, hki, ← hj]
        rw [hj] at ih ⊢
        exact ih
    · rw [if_neg hj] at ih ⊢
      by_cases hi : i = k
      · have hjk : (j == k) = false := beq_eq_false_iff_ne.mpr hj
        rw [if_pos hi, List.lookup_cons, List.lookup_cons, hi, hjk]
        exact ih
      · rw [if_neg hi, List.lookup_cons, List.lookup_cons, ih]

theorem insert_of_notMem (h : l.lookup k = none) (v : ν) : insert k v l = l ++ [(k, v)] := by
  rw [insert, h]
  rfl

/-- Entries of different keys, given one after the other, make the table that lists them. -/
theorem Keyed.insertAll {l m : List (κ × ν)} (h : Keyed (l ++ m)) : insertAll m l = l ++ m := by
  induction m generalizing l with
  | nil => exact (List.append_nil l).symm
  | cons e m ih =>
    have hnone : l.lookup e.1 = none := by
      rw [lookup_eq_none]
      intro d hd he
      rw [Keyed, List.map_append, List.nodup_append] at h
      exact h.2.2 _ (List.mem_map_of_mem hd) _ (List.mem_map_of_mem List.mem_cons_self) he
    change Assoc.insertAll m (insert e.1 e.2 l) = _
    rw [insert_of_notMem hnone, ih, List.append_assoc]
    · rfl
    · rwa [List.append_assoc]

theorem insertAll_append (m m' l : List (κ × ν)) :
    insertAll (m ++ m') l = insertAll m' (insertAll m l) := List.foldl_append

end Lib.Assoc
