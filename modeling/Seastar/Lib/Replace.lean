import Mathlib.Data.List.Find
import Mathlib.Data.List.Infix

/-!
Replacing texts: every leftmost occurrence of a key that does not overlap an earlier one gives way
to the value of the key, and the rest of the text stays.
-/

namespace Lib.Replace

variable {α : Type} [DecidableEq α] {table : List (List α × List α)} {k v s p : List α}

/-- The first entry of the table whose key the text begins with. -/
def pick (table : List (List α × List α)) (s : List α) : Option (List α × List α) :=
  table.find? fun e => decide (e.1 <+: s)

/-- The text with its occurrences replaced, after the characters that an occurrence still covers. -/
def replaceFrom (table : List (List α × List α)) : Nat → List α → List α
  | _, [] => []
  | n + 1, _ :: s => replaceFrom table n s
  | 0, c :: s =>
    match pick table (c :: s) with
    | some (k, v) => v ++ replaceFrom table (k.length - 1) s
    | none => c :: replaceFrom table 0 s

/-- The text with its occurrences replaced. -/
def replaceAll (table : List (List α × List α)) (s : List α) : List α := replaceFrom table 0 s

@[simp] theorem replaceAll_nil : replaceAll table [] = [] := rfl

theorem pick_eq_none : pick table s = none ↔ ∀ e ∈ table, ¬ e.1 <+: s := by
  simp [pick]

theorem pick_mem {e : List α × List α} (h : pick table s = some e) : e ∈ table :=
  List.mem_of_find?_eq_some h

theorem pick_isPrefix {e : List α × List α} (h : pick table s = some e) : e.1 <+: s := by
  have hp := List.find?_some (p := fun e : List α × List α => decide (e.1 <+: s)) h
  exact of_decide_eq_true hp

theorem pick_congr (h : ∀ e ∈ table, (e.1 <+: s ↔ e.1 <+: p)) : pick table s = pick table p :=
  List.find?_congr fun e he => decide_eq_decide.mpr (h e he)

theorem replaceFrom_append (p s : List α) :
    replaceFrom table p.length (p ++ s) = replaceAll table s := by
  induction p with
  | nil => rfl
  | cons c p ih => simpa [replaceFrom] using ih

/-- An occurrence at the beginning gives way to its value. -/
theorem replaceAll_key (h : pick table (k ++ s) = some (k, v)) (hk : k ≠ []) :
    replaceAll table (k ++ s) = v ++ replaceAll table s := by
  cases k with
  | nil => exact absurd rfl hk
  | cons c k =>
    rw [List.cons_append] at h
    rw [replaceAll, List.cons_append, replaceFrom, h]
    show v ++ replaceFrom table k.length (k ++ s) = _
    rw [replaceFrom_append]

/-- A character that begins no occurrence stays. -/
theorem replaceAll_cons {c : α} (h : pick table (c :: s) = none) :
    replaceAll table (c :: s) = c :: replaceAll table s := by
  rw [replaceAll, replaceFrom, h]
  rfl

/-- No key begins at a character of `p` when `s` follows. -/
def Clear (table : List (List α × List α)) : List α → List α → Prop
  | [], _ => True
  | c :: p, s => pick table (c :: (p ++ s)) = none ∧ Clear table p s

/-- A text in which no occurrence begins stays. -/
theorem Clear.replaceAll_append (h : Clear table p s) :
    replaceAll table (p ++ s) = p ++ replaceAll table s := by
  induction p with
  | nil => rfl
  | cons c p ih =>
    rw [List.cons_append, replaceAll_cons h.1, ih h.2, List.cons_append]

theorem replaceAll_of_clear (h : Clear table p []) : replaceAll table p = p := by
  have happend := h.replaceAll_append
  rwa [List.append_nil, replaceAll_nil, List.append_nil] at happend

/-- Where every value is its key, nothing changes. -/
theorem replaceAll_id (hne : ∀ e ∈ table, e.1 ≠ []) (hid : ∀ e ∈ table, e.2 = e.1) (s : List α) :
    replaceAll table s = s := by
  induction hn : s.length using Nat.strong_induction_on generalizing s with
  | h n ih =>
    cases s with
    | nil => rfl
    | cons c s =>
      cases hp : pick table (c :: s) with
      | none =>
        rw [replaceAll_cons hp, ih s.length (by simp [← hn]) s rfl]
      | some e =>
        obtain ⟨k, v⟩ := e
        obtain ⟨t, ht⟩ := pick_isPrefix hp
        have hk : k ≠ [] := hne _ (pick_mem hp)
        have hv : v = k := hid _ (pick_mem hp)
        have hlen : t.length < n := by
          have hpos : 0 < k.length := List.length_pos_iff.mpr hk
          have hlen : (c :: s).length = k.length + t.length := by
            rw [← ht, List.length_append]
          omega
        rw [← ht] at hp ⊢
        rw [replaceAll_key hp hk, ih t.length hlen t rfl, hv]

end Lib.Replace
