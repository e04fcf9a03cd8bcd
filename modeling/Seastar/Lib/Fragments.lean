import Mathlib.Data.List.Basic

/-!
A sequence that is kept in fragments. An element of the sequence has a place in one of the
fragments; what is written into the fragment at that place is written into the sequence.
-/

namespace Lib.Fragments

variable {α : Type}

/-- The elements from a position on are replaced. -/
def overwrite (l : List α) (pos : Nat) (xs : List α) : List α :=
  l.take pos ++ xs ++ l.drop (pos + xs.length)

/-- Where a fragment starts in the sequence. -/
def start (fs : List (List α)) (k : Nat) : Nat := (fs.take k).flatten.length

variable {l xs ys : List α} {fs : List (List α)} {f : List α} {pos k : Nat}

@[simp] theorem overwrite_nil (l : List α) (pos : Nat) : overwrite l pos [] = l := by
  simp [overwrite]

theorem length_overwrite (h : pos + xs.length ≤ l.length) :
    (overwrite l pos xs).length = l.length := by
  simp only [overwrite, List.length_append, List.length_take, List.length_drop]
  omega

/-- What is behind a position after a write there. -/
theorem drop_overwrite (h : pos ≤ l.length) :
    (overwrite l pos xs).drop pos = xs ++ l.drop (pos + xs.length) := by
  rw [overwrite, List.append_assoc, List.drop_left' (by rw [List.length_take, Nat.min_eq_left h])]

/-- One write after another, next to it. -/
theorem overwrite_append (h : pos + xs.length ≤ l.length) :
    overwrite (overwrite l pos xs) (pos + xs.length) ys = overwrite l pos (xs ++ ys) := by
  have hlen : (l.take pos ++ xs).length = pos + xs.length := by
    rw [List.length_append, List.length_take, Nat.min_eq_left (by omega)]
  rw [overwrite, overwrite, overwrite, List.take_left' hlen, List.drop_append, hlen,
    List.drop_eq_nil_of_le (by rw [hlen]; omega), List.nil_append, List.drop_drop,
    List.length_append, ← List.append_assoc]
  congr 2
  omega

/-- A write behind a first part. -/
theorem overwrite_length_add (f l : List α) (pos : Nat) (xs : List α) :
    overwrite (f ++ l) (f.length + pos) xs = f ++ overwrite l pos xs := by
  rw [overwrite, overwrite, List.take_length_add_append, Nat.add_assoc,
    List.drop_length_add_append, List.append_assoc, List.append_assoc, List.append_assoc]

/-- A write in a first part. -/
theorem overwrite_append_left (h : pos + xs.length ≤ l.length) (r : List α) :
    overwrite (l ++ r) pos xs = overwrite l pos xs ++ r := by
  rw [overwrite, overwrite, List.take_append_of_le_length (by omega),
    List.drop_append_of_le_length h, List.append_assoc _ _ r]

theorem start_succ (f : List α) (fs : List (List α)) (k : Nat) :
    start (f :: fs) (k + 1) = f.length + start fs k := by
  rw [start, List.take_succ_cons, List.flatten_cons, List.length_append, start]

/-- Where the fragments start depends on their lengths only. -/
theorem start_congr {gs : List (List α)} (h : gs.map List.length = fs.map List.length) (k : Nat) :
    start gs k = start fs k := by
  rw [start, start, List.length_flatten, List.length_flatten, List.map_take, List.map_take, h]

/-- A fragment ends within the sequence. -/
theorem start_add_length_le (hf : fs[k]? = some f) :
    start fs k + f.length ≤ fs.flatten.length := by
  induction fs generalizing k with
  | nil => cases hf
  | cons g gs ih =>
    rw [List.flatten_cons, List.length_append]
    cases k with
    | zero =>
      obtain rfl := Option.some.inj hf
      rw [start, List.take_zero, List.flatten_nil, List.length_nil, Nat.zero_add]
      exact Nat.le_add_right _ _
    | succ k =>
      rw [start_succ, Nat.add_assoc]
      exact Nat.add_le_add_left (ih hf) _

/-- What is read in a fragment is read in the sequence. -/
theorem drop_flatten (hf : fs[k]? = some f) {off n : Nat} (h : off + n ≤ f.length) :
    (fs.flatten.drop (start fs k + off)).take n = (f.drop off).take n := by
  induction fs generalizing k with
  | nil => cases hf
  | cons g gs ih =>
    cases k with
    | zero =>
      obtain rfl := Option.some.inj hf
      rw [start, List.take_zero, List.flatten_nil, List.length_nil, Nat.zero_add,
        List.flatten_cons, List.drop_append_of_le_length (by omega),
        List.take_append_of_le_length (by rw [List.length_drop]; omega)]
    | succ k =>
      rw [start_succ, List.flatten_cons, Nat.add_assoc, List.drop_length_add_append]
      exact ih hf

/-- What is written in a fragment is written in the sequence. -/
theorem flatten_set (hf : fs[k]? = some f) {off : Nat} (h : off + xs.length ≤ f.length) :
    (fs.set k (overwrite f off xs)).flatten = overwrite fs.flatten (start fs k + off) xs := by
  induction fs generalizing k with
  | nil => cases hf
  | cons g gs ih =>
    cases k with
    | zero =>
      obtain rfl := Option.some.inj hf
      rw [List.set_cons_zero, List.flatten_cons, start, List.take_zero, List.flatten_nil,
        List.length_nil, Nat.zero_add, List.flatten_cons, overwrite_append_left h]
    | succ k =>
      rw [List.set_cons_succ, List.flatten_cons, ih hf, start_succ, List.flatten_cons,
        Nat.add_assoc, overwrite_length_add]

theorem map_length_set (hf : fs[k]? = some f) {off : Nat} (h : off + xs.length ≤ f.length) :
    (fs.set k (overwrite f off xs)).map List.length = fs.map List.length := by
  rw [List.map_set, length_overwrite h]
  apply List.ext_getElem?
  intro i
  rw [List.getElem?_set]
  split
  · rename_i hk
    subst hk
    have hlt := (List.getElem?_eq_some_iff.mp hf).1
    rw [List.length_map, if_pos hlt, List.getElem?_map, hf]
    rfl
  · rfl

end Lib.Fragments
