import Seastar.Lib.JsonText

/-!
`formatter::to_json` of `json/formatter.cc` and `formatter.hh`. A string that is valid UTF-8 is its
sequence of characters. Strings are written as they are up to the first NUL, and keys of maps as
other values; so the text denotes the value exactly when no string needs an escape and all keys are
strings.
-/

namespace Seastar.Formatter

open Lib Lib.Json

/-- What is formatted: a vector or a map, of any key type, is the sequence of what its iterator
passes. -/
inductive Value
  | str (s : List Char)
  | int (n : Int)
  | bool (b : Bool)
  | vector (vs : List Value)
  | map (ps : List (Value × Value))

/-- `formatter::state` of a range. -/
inductive State
  | array
  | map
  deriving DecidableEq

/-- `begin`. -/
def State.open : State → List Char
  | array => ['[']
  | map => ['\x7b']

/-- `end`. -/
def State.close : State → List Char
  | array => [']']
  | map => ['\x7d']

/-- `c_str()`, as a C string. -/
def cStr (s : List Char) : List Char := s.takeWhile (· ≠ Char.ofNat 0)

/-- `to_string` of an integer. -/
def toStringInt : Int → List Char
  | .ofNat n => Nat.toDigits 10 n
  | .negSucc n => '-' :: Nat.toDigits 10 (n + 1)

/-- `to_json(const char*)`. -/
def quoted (s : List Char) : List Char := '"' :: (s ++ ['"'])

/-- What comes before the element `n` of a range. -/
def separator (n : Nat) : List Char := if n ≠ 0 then [','] else []

mutual

/-- `to_json`. -/
def toJson : Value → List Char
  | .str s => quoted (cStr s)
  | .int n => toStringInt n
  | .bool b => if b then ['t', 'r', 'u', 'e'] else ['f', 'a', 'l', 's', 'e']
  | .vector vs => State.array.open ++ elementsJson 0 vs ++ State.array.close
  | .map ps => State.map.open ++ pairsJson 0 ps ++ State.map.close

/-- The loop of `to_json(state, Iter, Iter)` over the elements of a vector. -/
def elementsJson : Nat → List Value → List Char
  | _, [] => []
  | n, v :: vs => separator n ++ toJson v ++ elementsJson (n + 1) vs

/-- The same loop over the pairs of a map. -/
def pairsJson : Nat → List (Value × Value) → List Char
  | _, [] => []
  | n, (k, v) :: ps => separator n ++ toJson k ++ ':' :: toJson v ++ pairsJson (n + 1) ps

end

/-- A key as a string. -/
def keyString : Value → List Char
  | .str s => s
  | k => toJson k

mutual

/-- The value as one of JSON. -/
def denote : Value → Json
  | .str s => .str s
  | .int n => .num n
  | .bool b => .bool b
  | .vector vs => .arr (denoteAll vs)
  | .map ps => .obj (denotePairs ps)

def denoteAll : List Value → List Json
  | [] => []
  | v :: vs => denote v :: denoteAll vs

def denotePairs : List (Value × Value) → List (List Char × Json)
  | [] => []
  | (k, v) :: ps => (keyString k, denote v) :: denotePairs ps

end

/-- A key that is a string without characters to escape. -/
def plainKey : Value → Bool
  | .str s => decide (Plain s)
  | _ => false

mutual

/-- No string needs an escape, and all keys are strings. -/
def plain : Value → Bool
  | .str s => decide (Plain s)
  | .int _ => true
  | .bool _ => true
  | .vector vs => allPlain vs
  | .map ps => pairsPlain ps

def allPlain : List Value → Bool
  | [] => true
  | v :: vs => plain v && allPlain vs

def pairsPlain : List (Value × Value) → Bool
  | [] => true
  | (k, v) :: ps => plainKey k && plain v && pairsPlain ps

end

variable {v w : Value} {vs : List Value} {ps : List (Value × Value)} {r r' : List Char} {n : Nat}

/-! ## Integers -/

theorem toDigits_all (n : Nat) : ∀ c ∈ Nat.toDigits 10 n, c.isDigit = true :=
  fun _ hc => Nat.isDigit_of_mem_toDigits (by decide) (by decide) hc

theorem digitChar_ne_zero {n : Nat} (hpos : 0 < n) (hlt : n < 10) : n.digitChar ≠ '0' := by
  interval_cases n <;> decide

/-- No number but zero is written with a zero first. -/
theorem head_toDigits (n : Nat) (hpos : 0 < n) : (Nat.toDigits 10 n).head? ≠ some '0' := by
  induction n using Nat.strongRecOn with
  | ind n ih =>
    by_cases hlt : n < 10
    · rw [Nat.toDigits_of_lt_base hlt]
      intro h
      exact digitChar_ne_zero hpos hlt (Option.some.inj h)
    · rw [Nat.toDigits_of_base_le (by decide) (by omega), List.head?_append_of_ne_nil _
        Nat.toDigits_ne_nil]
      exact ih (n / 10) (by omega) (by omega)

theorem unsignedValue_toDigits (n : Nat) :
    unsignedValue (Nat.toDigits 10 n) = some (n : ℚ) := by
  have hall := toDigits_all n
  have hdigits : digits (Nat.toDigits 10 n) = some (Nat.toDigits 10 n, []) := by
    have htake : (Nat.toDigits 10 n).takeWhile Char.isDigit = Nat.toDigits 10 n :=
      List.takeWhile_eq_self_iff.mpr hall
    have hdrop : (Nat.toDigits 10 n).dropWhile Char.isDigit = [] :=
      List.dropWhile_eq_nil_iff.mpr hall
    rw [digits, htake, hdrop, if_neg Nat.toDigits_ne_nil]
  have hzero : ¬ ((Nat.toDigits 10 n).head? = some '0' ∧ Nat.toDigits 10 n ≠ ['0']) := by
    rintro ⟨hhead, hne⟩
    by_cases hn : n = 0
    · exact hne (by rw [hn, Nat.toDigits_zero])
    · exact head_toDigits n (Nat.pos_of_ne_zero hn) hhead
  rw [unsignedValue, hdigits, Option.bind_some]
  simp only [if_neg hzero, fraction, exponent, Option.bind_some, if_true, List.append_nil,
    List.length_nil, Nat.ofDigitChars_ten_toDigits]
  norm_num

theorem numberValue_int (n : Int) : numberValue (toStringInt n) = some (n : ℚ) := by
  cases n with
  | ofNat n =>
    obtain ⟨c, cs, hcs⟩ := List.exists_cons_of_ne_nil (Nat.toDigits_ne_nil (n := n) (b := 10))
    have hc : c ≠ '-' := by
      have := toDigits_all n c (by rw [hcs]; exact List.mem_cons_self)
      rintro rfl
      cases this
    rw [toStringInt, hcs, numberValue, if_neg hc, ← hcs, unsignedValue_toDigits]
    simp
  | negSucc n =>
    rw [toStringInt, numberValue, if_pos rfl, unsignedValue_toDigits]
    simp only [Option.map_some, Int.cast_negSucc]

theorem isNumChar_of_isDigit {c : Char} (h : c.isDigit = true) : isNumChar c = true := by
  simp [isNumChar, h]

theorem toStringInt_all (n : Int) : ∀ c ∈ toStringInt n, isNumChar c = true := by
  intro c hc
  cases n with
  | ofNat n => exact isNumChar_of_isDigit (toDigits_all n c hc)
  | negSucc n =>
    rcases List.mem_cons.mp hc with rfl | hc
    · decide
    · exact isNumChar_of_isDigit (toDigits_all _ c hc)

theorem toStringInt_ne_nil (n : Int) : toStringInt n ≠ [] := by
  cases n with
  | ofNat n => exact Nat.toDigits_ne_nil
  | negSucc n => exact List.cons_ne_nil _ _

/-- The characters of a number begin no other value. -/
theorem ne_of_isNumChar {c d : Char} (hc : isNumChar c = true) (hd : isNumChar d = false) : c ≠ d := by
  rintro rfl
  rw [hc] at hd
  cases hd

theorem scalar_int {c : Char} {cs : List Char} (n : Int) (hcs : toStringInt n = c :: cs)
    (hr : Stops r) : scalar c (cs ++ r) = some (.num n, r) := by
  have hall := toStringInt_all n
  rw [hcs] at hall
  have hc := hall c List.mem_cons_self
  obtain ⟨htake, hdrop⟩ := takeWhile_stops hall hr
  rw [scalar, if_neg (ne_of_isNumChar hc (by decide)), if_pos hc, ← List.cons_append, htake, hdrop,
    ← hcs, numberValue_int]
  rfl

/-! ## Texts of values -/

/-- What holds of a container if it holds of what is in it holds of every value. -/
@[elab_as_elim]
theorem Value.induct {P : Value → Prop} (str : ∀ s, P (.str s)) (int : ∀ n, P (.int n))
    (bool : ∀ b, P (.bool b)) (vector : ∀ vs, (∀ v ∈ vs, P v) → P (.vector vs))
    (map : ∀ ps, (∀ p ∈ ps, P p.1 ∧ P p.2) → P (.map ps)) (v : Value) : P v := by
  refine @Value.rec P (fun vs => ∀ v ∈ vs, P v) (fun ps => ∀ p ∈ ps, P p.1 ∧ P p.2)
    (fun p => P p.1 ∧ P p.2) str int bool vector map ?_ ?_ ?_ ?_ ?_ v
  · intro v hv
    cases hv
  · intro v vs hv hvs
    exact List.forall_mem_cons.mpr ⟨hv, hvs⟩
  · intro p hp
    cases hp
  · intro p ps hp hps
    exact List.forall_mem_cons.mpr ⟨hp, hps⟩
  · intro k v hk hv
    exact ⟨hk, hv⟩

/-- A value begins with no white space and no bracket that closes, and only a string with a quote. -/
theorem toJson_head (v : Value) : ∃ c cs, toJson v = c :: cs ∧ isWs c = false ∧ c ≠ ']' ∧
    c ≠ '\x7d' ∧ (c = '"' → ∃ s, v = .str s) := by
  cases v with
  | str s => exact ⟨'"', cStr s ++ ['"'], by rw [toJson, quoted], by decide, by decide, by decide,
      fun _ => ⟨s, rfl⟩⟩
  | int n =>
    obtain ⟨c, cs, hcs⟩ := List.exists_cons_of_ne_nil (toStringInt_ne_nil n)
    have hc : isNumChar c = true := toStringInt_all n c (by rw [hcs]; exact List.mem_cons_self)
    refine ⟨c, cs, by rw [toJson, hcs], ?_, ne_of_isNumChar hc (by decide),
      ne_of_isNumChar hc (by decide), fun h => absurd h (ne_of_isNumChar hc (by decide))⟩
    cases hws : isWs c with
    | false => rfl
    | true =>
      rw [not_num_of_ws hws] at hc
      cases hc
  | bool b =>
    cases b with
    | false => exact ⟨'f', ['a', 'l', 's', 'e'], by simp [toJson], by decide, by decide, by decide,
        fun h => absurd h (by decide)⟩
    | true => exact ⟨'t', ['r', 'u', 'e'], by simp [toJson], by decide, by decide, by decide,
        fun h => absurd h (by decide)⟩
  | vector vs => exact ⟨'[', elementsJson 0 vs ++ [']'], by simp [toJson, State.open, State.close],
      by decide, by decide, by decide, fun h => absurd h (by decide)⟩
  | map ps => exact ⟨'\x7b', pairsJson 0 ps ++ ['\x7d'],
      by simp [toJson, State.open, State.close], by decide, by decide, by decide,
      fun h => absurd h (by decide)⟩

/-- What comes after the first element of a vector. -/
def restJson (vs : List Value) : List Char := vs.flatMap fun v => ',' :: toJson v

/-- What comes after the first pair of a map. -/
def restPairs (ps : List (Value × Value)) : List Char :=
  ps.flatMap fun p => ',' :: (toJson p.1 ++ ':' :: toJson p.2)

theorem elementsJson_succ (n : Nat) (vs : List Value) : elementsJson (n + 1) vs = restJson vs := by
  induction vs generalizing n with
  | nil => rw [elementsJson, restJson, List.flatMap_nil]
  | cons v vs ih =>
    rw [elementsJson, ih, restJson, restJson, List.flatMap_cons]
    rfl

theorem elementsJson_cons (v : Value) (vs : List Value) :
    elementsJson 0 (v :: vs) = toJson v ++ restJson vs := by
  rw [elementsJson, elementsJson_succ]
  rfl

theorem pairsJson_succ (n : Nat) (ps : List (Value × Value)) :
    pairsJson (n + 1) ps = restPairs ps := by
  induction ps generalizing n with
  | nil => rw [pairsJson, restPairs, List.flatMap_nil]
  | cons p ps ih =>
    obtain ⟨k, v⟩ := p
    rw [pairsJson, ih, restPairs, restPairs, List.flatMap_cons]
    simp [separator]

theorem pairsJson_cons (k v : Value) (ps : List (Value × Value)) :
    pairsJson 0 ((k, v) :: ps) = toJson k ++ ':' :: (toJson v ++ restPairs ps) := by
  rw [pairsJson, pairsJson_succ]
  simp [separator]

theorem restJson_cons (v : Value) (vs : List Value) :
    restJson (v :: vs) = ',' :: (toJson v ++ restJson vs) := by
  rw [restJson, List.flatMap_cons]
  rfl

theorem restPairs_cons (p : Value × Value) (ps : List (Value × Value)) :
    restPairs (p :: ps) = ',' :: (toJson p.1 ++ ':' :: (toJson p.2 ++ restPairs ps)) := by
  rw [restPairs, List.flatMap_cons, restPairs]
  simp only [List.cons_append, List.append_assoc]

/-! ## Values without escapes -/

/-- The text of the value is read as the value. -/
def Reads (v : Value) : Prop :=
  ∀ m r, 2 * (toJson v).length ≤ m → Stops r → value m (toJson v ++ r) = some (denote v, r)

/-- A value does not begin with what is not expected of it. -/
theorem expect_toJson {c : Char} (hc : ∀ d cs, toJson v = d :: cs → d ≠ c) (r : List Char) :
    expect c (toJson v ++ r) = none := by
  obtain ⟨d, cs, hcs, hws, -⟩ := toJson_head v
  rw [expect, hcs, List.cons_append, skipWs_of_not_ws hws]
  exact if_neg (hc d cs hcs)

theorem cStr_plain {s : List Char} (hs : Plain s) : cStr s = s := by
  refine List.takeWhile_eq_self_iff.mpr fun c hc => ?_
  refine decide_eq_true ?_
  rintro rfl
  cases hs _ hc

theorem value_int (n : Int) (hr : Stops r) (m : Nat) :
    value (m + 1) (toJson (.int n) ++ r) = some (denote (.int n), r) := by
  obtain ⟨c, cs, hcs⟩ := List.exists_cons_of_ne_nil (toStringInt_ne_nil n)
  have hc : isNumChar c = true := toStringInt_all n c (by rw [hcs]; exact List.mem_cons_self)
  obtain ⟨c', cs', hcs', hws, -⟩ := toJson_head (.int n)
  rw [toJson] at hcs' ⊢
  obtain ⟨rfl, rfl⟩ := List.cons.inj (hcs.symm.trans hcs')
  rw [hcs, List.cons_append, value_cons hws, if_neg (ne_of_isNumChar hc (by decide)),
    if_neg (ne_of_isNumChar hc (by decide)), scalar_int n hcs hr, denote]

theorem value_bool (b : Bool) (r : List Char) (m : Nat) :
    value (m + 1) (toJson (.bool b) ++ r) = some (denote (.bool b), r) := by
  rw [toJson, denote]
  cases b with
  | false => rfl
  | true => rfl

theorem toJson_ne_nil (v : Value) : toJson v ≠ [] := by
  obtain ⟨c, cs, hcs, -⟩ := toJson_head v
  rw [hcs]
  exact List.cons_ne_nil c cs

/-- There is a round for a value. -/
theorem exists_round {m : Nat} (hm : 2 * (toJson v).length ≤ m) : ∃ k, m = k + 1 := by
  have := List.length_pos_iff.mpr (toJson_ne_nil v)
  exact Nat.exists_eq_succ_of_ne_zero (by omega)

theorem reads_str {s : List Char} (hs : Plain s) : Reads (.str s) := by
  intro m r hm _
  obtain ⟨m, rfl⟩ := exists_round hm
  rw [toJson, quoted, cStr_plain hs, List.cons_append, value_cons (by decide), if_neg (by decide), if_neg (by decide), scalar,
    if_pos rfl, List.append_assoc, List.cons_append, List.nil_append, string_plain hs, denote]
  rfl

theorem reads_int (n : Int) : Reads (.int n) := by
  intro m r hm hr
  obtain ⟨m, rfl⟩ := exists_round hm
  exact value_int n hr m

theorem reads_bool (b : Bool) : Reads (.bool b) := by
  intro m r hm _
  obtain ⟨m, rfl⟩ := exists_round hm
  exact value_bool b r m

/-- The elements of a vector, up to its end. -/
theorem elements_reads (hv : Reads v) (hvs : ∀ w ∈ vs, Reads w) {m : Nat} (r : List Char)
    (hm : 2 * (toJson v ++ restJson vs).length + 1 ≤ m) :
    elements m (toJson v ++ restJson vs ++ ']' :: r) = some (denoteAll (v :: vs), r) := by
  induction vs generalizing v m with
  | nil =>
    obtain ⟨m, rfl⟩ := Nat.exists_eq_succ_of_ne_zero (show m ≠ 0 by omega)
    rw [restJson, List.flatMap_nil, List.append_nil] at hm ⊢
    rw [elements, hv m _ (by omega) (stops_cons (by decide) _), Option.bind_some, following]
    rfl
  | cons w vs ih =>
    obtain ⟨m, rfl⟩ := Nat.exists_eq_succ_of_ne_zero (show m ≠ 0 by omega)
    have hnext := ih (v := w) (m := m) (hvs w List.mem_cons_self)
      (fun x hx => hvs x (List.mem_cons_of_mem _ hx))
    rw [restJson_cons] at hm ⊢
    simp only [List.length_append, List.length_cons] at hm hnext
    rw [List.append_assoc, List.cons_append, elements,
      hv m _ (by omega) (stops_cons (by decide) _), Option.bind_some, following,
      expect_cons (by decide)]
    dsimp only
    rw [hnext (by omega)]
    rfl

theorem toJson_vector (vs : List Value) (r : List Char) :
    toJson (.vector vs) ++ r = '[' :: (elementsJson 0 vs ++ ']' :: r) := by
  simp [toJson, State.open, State.close]

theorem toJson_map (ps : List (Value × Value)) (r : List Char) :
    toJson (.map ps) ++ r = '\x7b' :: (pairsJson 0 ps ++ '\x7d' :: r) := by
  simp [toJson, State.open, State.close]

/-- No bracket closes where a value begins. -/
theorem expect_close (v : Value) (r : List Char) : expect ']' (toJson v ++ r) = none := by
  obtain ⟨c, cs, hcs, -, hc, -⟩ := toJson_head v
  refine expect_toJson (fun d ds hd => ?_) r
  obtain ⟨rfl, -⟩ := List.cons.inj (hcs.symm.trans hd)
  exact hc

theorem expect_brace (v : Value) (r : List Char) : expect '\x7d' (toJson v ++ r) = none := by
  obtain ⟨c, cs, hcs, -, -, hc, -⟩ := toJson_head v
  refine expect_toJson (fun d ds hd => ?_) r
  obtain ⟨rfl, -⟩ := List.cons.inj (hcs.symm.trans hd)
  exact hc

theorem reads_vector (hvs : ∀ v ∈ vs, Reads v) : Reads (.vector vs) := by
  intro m r hm _
  rw [toJson_vector]
  rw [toJson, State.open, State.close] at hm
  simp only [List.length_append, List.length_cons, List.length_nil] at hm
  obtain ⟨m, rfl⟩ := Nat.exists_eq_succ_of_ne_zero (show m ≠ 0 by omega)
  rw [value_cons (by decide), if_pos rfl, denote]
  cases vs with
  | nil =>
    rw [elementsJson]
    rfl
  | cons v vs =>
    rw [elementsJson_cons] at hm ⊢
    have hread := elements_reads (hvs v List.mem_cons_self)
      (fun w hw => hvs w (List.mem_cons_of_mem _ hw)) r (m := m) (by omega)
    rw [bracketed, List.append_assoc, expect_close, ← List.append_assoc]
    dsimp only
    rw [hread]
    rfl

theorem exists_str_of_plainKey (h : plainKey v = true) : ∃ s, v = .str s ∧ Plain s := by
  cases v with
  | str s =>
    rw [plainKey] at h
    exact ⟨s, rfl, of_decide_eq_true h⟩
  | int n => cases h
  | bool b => cases h
  | vector vs => cases h
  | map ps => cases h

/-- The pairs of a map, up to its end. -/
theorem members_reads {k : Value} (hk : plainKey k = true) (hv : Reads v)
    (hps : ∀ p ∈ ps, plainKey p.1 = true ∧ Reads p.2) {m : Nat} (r : List Char)
    (hm : 2 * (toJson k ++ ':' :: (toJson v ++ restPairs ps)).length + 1 ≤ m) :
    members m (toJson k ++ ':' :: (toJson v ++ restPairs ps) ++ '\x7d' :: r) =
      some (denotePairs ((k, v) :: ps), r) := by
  induction ps generalizing k v m with
  | nil =>
    obtain ⟨m, rfl⟩ := Nat.exists_eq_succ_of_ne_zero (show m ≠ 0 by omega)
    obtain ⟨s, rfl, hs⟩ := exists_str_of_plainKey hk
    rw [toJson, quoted, cStr_plain hs, restPairs, List.flatMap_nil, List.append_nil] at hm ⊢
    simp only [List.length_append, List.length_cons, List.length_nil] at hm
    simp only [List.cons_append, List.append_assoc, List.nil_append]
    rw [members, expect_cons (by decide), Option.bind_some, string_plain hs, Option.bind_some,
      expect_cons (by decide), Option.bind_some, hv m _ (by omega) (stops_cons (by decide) _),
      Option.bind_some, following]
    rfl
  | cons p ps ih =>
    obtain ⟨m, rfl⟩ := Nat.exists_eq_succ_of_ne_zero (show m ≠ 0 by omega)
    obtain ⟨s, rfl, hs⟩ := exists_str_of_plainKey hk
    obtain ⟨hkey, hval⟩ := hps p List.mem_cons_self
    have hnext := ih (m := m) hkey hval (fun q hq => hps q (List.mem_cons_of_mem _ hq))
    rw [toJson, quoted, cStr_plain hs, restPairs_cons] at hm ⊢
    simp only [List.length_append, List.length_cons, List.length_nil] at hm hnext
    simp only [List.cons_append, List.append_assoc, List.nil_append] at hnext ⊢
    rw [members, expect_cons (by decide), Option.bind_some, string_plain hs, Option.bind_some,
      expect_cons (by decide), Option.bind_some, hv m _ (by omega) (stops_cons (by decide) _),
      Option.bind_some, following, expect_cons (by decide)]
    dsimp only
    rw [hnext (by omega)]
    rfl

theorem reads_map (hps : ∀ p ∈ ps, plainKey p.1 = true ∧ Reads p.2) : Reads (.map ps) := by
  intro m r hm _
  rw [toJson_map]
  rw [toJson, State.open, State.close] at hm
  simp only [List.length_append, List.length_cons, List.length_nil] at hm
  obtain ⟨m, rfl⟩ := Nat.exists_eq_succ_of_ne_zero (show m ≠ 0 by omega)
  rw [value_cons (by decide), if_neg (by decide), if_pos rfl, denote]
  cases ps with
  | nil =>
    rw [pairsJson]
    rfl
  | cons p ps =>
    obtain ⟨k, v⟩ := p
    rw [pairsJson_cons] at hm ⊢
    obtain ⟨hkey, hval⟩ := List.forall_mem_cons.mp hps
    have hread := members_reads hkey.1 hkey.2 hval r (m := m) (by
      dsimp only
      omega)
    rw [bracketed, List.append_assoc, expect_brace, ← List.append_assoc]
    dsimp only
    rw [hread]
    rfl

theorem allPlain_iff : allPlain vs = true ↔ ∀ v ∈ vs, plain v = true := by
  induction vs with
  | nil => simp [allPlain]
  | cons v vs ih => simp [allPlain, ih]

theorem pairsPlain_iff :
    pairsPlain ps = true ↔ ∀ p ∈ ps, plainKey p.1 = true ∧ plain p.2 = true := by
  induction ps with
  | nil => simp [pairsPlain]
  | cons p ps ih => simp [pairsPlain, ih]

/-- A value without escapes is read from its text. -/
theorem reads_of_plain (v : Value) (h : plain v = true) : Reads v := by
  induction v using Value.induct with
  | str s =>
    rw [plain] at h
    exact reads_str (of_decide_eq_true h)
  | int n => exact reads_int n
  | bool b => exact reads_bool b
  | vector vs ih =>
    rw [plain, allPlain_iff] at h
    exact reads_vector fun v hv => ih v hv (h v hv)
  | map ps ih =>
    rw [plain, pairsPlain_iff] at h
    exact reads_map fun p hp => ⟨(h p hp).1, (ih p hp).2 (h p hp).2⟩

end Seastar.Formatter
