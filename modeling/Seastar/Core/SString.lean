import Mathlib.Algebra.Group.Nat.Defs
import Seastar.Core.Fault

/-!
What an `sstring` of `core/sstring.hh` says, apart from where it is stored: at most as many bytes as
a `uint32_t` counts. A search that finds nothing returns `npos`, the largest `uint32_t`.
-/

namespace Seastar

/-- `sstring`. -/
structure SString where
  bytes : List UInt8
  size_lt : bytes.length < 2 ^ 32
  deriving DecidableEq

namespace SString

/-- `npos`, of the size type `uint32_t`. -/
def npos : Nat := 2 ^ 32 - 1

def size (s : SString) : Nat := s.bytes.length

/-- The loop of `find(char_type, size_t)`: the bytes from `it` on, which is at position `i`. -/
def findFrom (t : UInt8) : List UInt8 → Nat → Nat
  | [], _ => npos
  | c :: cs, i => if c = t then i else findFrom t cs (i + 1)

/-- `find(char_type, size_t)`. -/
def find (s : SString) (t : UInt8) (pos : Nat) : Nat := findFrom t (s.bytes.drop pos) pos

/-- The loop of `find(const basic_sstring&, size_t)`. -/
def findStrFrom (x : List UInt8) : List UInt8 → Nat → Nat
  | [], _ => npos
  | c :: cs, i => if x.isPrefixOf (c :: cs) then i else findStrFrom x cs (i + 1)

/-- `find(const basic_sstring&, size_t)`. -/
def findStr (s x : SString) (pos : Nat) : Nat := findStrFrom x.bytes (s.bytes.drop pos) pos

/-- `substr(from, len)`. -/
def substr (s : SString) (start len : Nat) : Except Fault SString :=
  if start > s.size then .error .outOfRange
  else .ok
    { bytes := (s.bytes.drop start).take len
      size_lt := by
        have := s.size_lt
        rw [List.length_take, List.length_drop]
        omega }

/-- The constructors: a string that is too long is refused. -/
def make (bytes : List UInt8) : Except Fault SString :=
  if h : bytes.length < 2 ^ 32 then .ok { bytes, size_lt := h } else .error .sstringOverflow

variable {t c : UInt8} {p q : List UInt8} {i pos : Nat} {s : SString}

@[simp] theorem findFrom_self (cs : List UInt8) : findFrom t (t :: cs) i = i := if_pos rfl

theorem findFrom_of_notMem (h : t ∉ p) : findFrom t p i = npos := by
  induction p generalizing i with
  | nil => rfl
  | cons c p ih =>
    rw [findFrom, if_neg fun hc => h (by simp [hc])]
    exact ih fun hp => h (List.mem_cons_of_mem c hp)

/-- A byte is found behind those that differ from it. -/
theorem findFrom_append (h : t ∉ p) : findFrom t (p ++ t :: q) i = i + p.length := by
  induction p generalizing i with
  | nil => simp
  | cons c p ih =>
    rw [List.cons_append, findFrom, if_neg fun hc => h (by simp [hc]),
      ih fun hp => h (List.mem_cons_of_mem c hp), List.length_cons]
    omega

theorem findStrFrom_ge (x u : List UInt8) (i : Nat) :
    findStrFrom x u i = npos ∨ i ≤ findStrFrom x u i := by
  induction u generalizing i with
  | nil => exact Or.inl rfl
  | cons c u ih =>
    rw [findStrFrom]
    split
    · exact Or.inr (Nat.le_refl i)
    · exact (ih (i + 1)).imp_right Nat.le_of_succ_le

/-- A string is found right where the search begins if the text there begins with it, and does
not begin at its end. -/
theorem findStrFrom_eq_self {x u : List UInt8} (hi : i ≠ npos) :
    findStrFrom x u i = i ↔ u ≠ [] ∧ x <+: u := by
  cases u with
  | nil =>
    rw [findStrFrom]
    exact iff_of_false (Ne.symm hi) fun h => h.1 rfl
  | cons c u =>
    rw [findStrFrom, ← List.isPrefixOf_iff_prefix]
    split
    · rename_i h
      exact iff_of_true rfl ⟨List.cons_ne_nil c u, h⟩
    · rename_i h
      refine iff_of_false (fun he => ?_) fun h' => h h'.2
      rcases findStrFrom_ge x u (i + 1) with hn | hle
      · exact hi (he.symm.trans hn)
      · omega

theorem substr_ok (s : SString) {start : Nat} (h : start ≤ s.size) (len : Nat) :
    ∃ r, s.substr start len = .ok r ∧ r.bytes = (s.bytes.drop start).take len := by
  rw [substr, if_neg (Nat.not_lt.mpr h)]
  exact ⟨_, rfl, rfl⟩

theorem make_ok {bytes : List UInt8} : make bytes = .ok s ↔ s.bytes = bytes := by
  unfold make
  split
  · rename_i h
    constructor
    · intro he
      rw [← Except.ok.inj he]
    · intro he
      subst he
      rfl
  · rename_i h
    refine iff_of_false (fun he => by cases he) fun he => h (he ▸ s.size_lt)

end SString

end Seastar
