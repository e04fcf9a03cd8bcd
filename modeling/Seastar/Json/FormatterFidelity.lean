import Seastar.Json.Formatter

/-!
When `formatter::to_json` is faithful: the text it makes of a value is read back as the value
exactly when no string in it needs an escape and all keys of maps are strings.
-/

namespace Seastar.Formatter

open Lib Lib.Json

variable {v w : Value} {vs : List Value} {ps : List (Value × Value)} {r r' : List Char} {n : Nat}

/-- The text is read as the value only if the value needs no escapes; and nothing more is read. -/
def Exact (v : Value) : Prop :=
  ∀ n r r', Stops r' → value n (toJson v ++ r') = some (denote v, r) → plain v = true ∧ r = r'

theorem exists_round_of_some {x : Json × List Char} {cs : List Char} (h : value n cs = some x) :
    ∃ k, n = k + 1 := by
  cases n with
  | zero =>
    rw [value] at h
    cases h
  | succ n => exact ⟨n, rfl⟩

theorem cStr_prefix_self (s : List Char) : cStr s <+: s := List.takeWhile_prefix _

theorem exact_str (s : List Char) : Exact (.str s) := by
  intro n r r' _ h
  obtain ⟨n, rfl⟩ := exists_round_of_some h
  rw [toJson, quoted, List.cons_append, value_cons (by decide), if_neg (by decide),
    if_neg (by decide), scalar, if_pos rfl, List.append_assoc, List.cons_append, List.nil_append,
    denote] at h
  obtain ⟨⟨s', r₁⟩, hs, h⟩ := Option.map_eq_some_iff.mp h
  obtain ⟨hstr, rfl⟩ := Prod.mk.inj h
  obtain rfl := Json.str.inj hstr
  obtain ⟨hplain, heq, hr⟩ := string_raw hs (cStr_prefix_self _)
  rw [← heq] at hplain
  exact ⟨by rw [plain]; exact decide_eq_true hplain, hr⟩

theorem exact_int (n : Int) : Exact (.int n) := by
  intro k r r' hr' h
  obtain ⟨k, rfl⟩ := exists_round_of_some h
  rw [value_int n hr'] at h
  obtain ⟨-, rfl⟩ := Prod.mk.inj (Option.some.inj h)
  exact ⟨by rw [plain], rfl⟩

theorem exact_bool (b : Bool) : Exact (.bool b) := by
  intro k r r' _ h
  obtain ⟨k, rfl⟩ := exists_round_of_some h
  rw [value_bool] at h
  obtain ⟨-, rfl⟩ := Prod.mk.inj (Option.some.inj h)
  exact ⟨by rw [plain], rfl⟩

theorem elements_exact (hv : Exact v) (hvs : ∀ w ∈ vs, Exact w)
    (h : elements n (toJson v ++ restJson vs ++ ']' :: r') = some (denoteAll (v :: vs), r)) :
    (∀ w ∈ v :: vs, plain w = true) ∧ r = r' := by
  induction vs generalizing v n with
  | nil =>
    cases n with
    | zero =>
      rw [elements] at h
      cases h
    | succ n =>
      rw [restJson, List.flatMap_nil, List.append_nil, elements, Option.bind_eq_some_iff] at h
      obtain ⟨⟨x, r₁⟩, hx, h⟩ := h
      obtain ⟨rfl, h⟩ := following_some h
      obtain ⟨hplain, rfl⟩ := hv _ _ _ (stops_cons (by decide) _) hx
      rcases h with ⟨r₂, hcomma, -⟩ | ⟨-, -, hend⟩
      · cases hcomma
      · obtain rfl := Option.some.inj hend
        exact ⟨List.forall_mem_singleton.mpr hplain, rfl⟩
  | cons w vs ih =>
    cases n with
    | zero =>
      rw [elements] at h
      cases h
    | succ n =>
      rw [restJson_cons, List.append_assoc, List.cons_append, elements,
        Option.bind_eq_some_iff] at h
      obtain ⟨⟨x, r₁⟩, hx, h⟩ := h
      obtain ⟨rfl, h⟩ := following_some h
      obtain ⟨hplain, rfl⟩ := hv _ _ _ (stops_cons (by decide) _) hx
      rcases h with ⟨r₂, hcomma, hrest⟩ | ⟨hcomma, -⟩
      · obtain rfl := Option.some.inj hcomma
        obtain ⟨hall, rfl⟩ := ih (hvs w List.mem_cons_self)
          (fun x hx => hvs x (List.mem_cons_of_mem _ hx)) hrest
        exact ⟨List.forall_mem_cons.mpr ⟨hplain, hall⟩, rfl⟩
      · cases hcomma

theorem exact_vector (hvs : ∀ v ∈ vs, Exact v) : Exact (.vector vs) := by
  intro n r r' _ h
  obtain ⟨n, rfl⟩ := exists_round_of_some h
  rw [toJson_vector, value_cons (by decide), if_pos rfl, denote] at h
  obtain ⟨⟨xs, r₁⟩, hxs, h⟩ := Option.map_eq_some_iff.mp h
  obtain ⟨harr, rfl⟩ := Prod.mk.inj h
  obtain rfl := Json.arr.inj harr
  rw [plain, allPlain_iff]
  cases vs with
  | nil =>
    rw [elementsJson] at hxs
    obtain ⟨-, rfl⟩ := Prod.mk.inj (Option.some.inj hxs)
    exact ⟨fun v hv => absurd hv List.not_mem_nil, rfl⟩
  | cons v vs =>
    rw [elementsJson_cons, bracketed, List.append_assoc, expect_close, ← List.append_assoc] at hxs
    exact elements_exact (hvs v List.mem_cons_self)
      (fun w hw => hvs w (List.mem_cons_of_mem _ hw)) hxs

/-- Only a string begins with a quote. -/
theorem expect_quote (h : expect '"' (toJson v ++ r) = some r') :
    ∃ s, v = .str s ∧ r' = cStr s ++ '"' :: r := by
  obtain ⟨c, cs, hcs, hws, -, -, hquote⟩ := toJson_head v
  by_cases hc : c = '"'
  · obtain ⟨s, rfl⟩ := hquote hc
    rw [toJson, quoted, List.cons_append, expect_cons (by decide)] at h
    obtain rfl := Option.some.inj h
    exact ⟨s, rfl, by simp⟩
  · rw [expect_toJson fun d ds hd => (List.cons.inj (hcs.symm.trans hd)).1 ▸ hc] at h
    cases h

/-- A key and its value, where they are read as what they are. -/
theorem member_exact {k : Value} {X s r₁ r₂ r₃ r₄ : List Char} (hv : Exact v) (hX : Stops X)
    (hquote : expect '"' (toJson k ++ ':' :: (toJson v ++ X)) = some r₁)
    (hstring : string r₁ = some (s, r₂)) (hkey : s = keyString k)
    (hcolon : expect ':' r₂ = some r₃) (hvalue : value n r₃ = some (denote v, r₄)) :
    plainKey k = true ∧ plain v = true ∧ r₄ = X := by
  obtain ⟨s', rfl, rfl⟩ := expect_quote hquote
  rw [keyString] at hkey
  subst hkey
  obtain ⟨hplain, heq, rfl⟩ := string_raw hstring (cStr_prefix_self _)
  rw [expect_cons (by decide)] at hcolon
  obtain rfl := Option.some.inj hcolon
  obtain ⟨hplainv, rfl⟩ := hv _ _ _ hX hvalue
  rw [← heq] at hplain
  exact ⟨by rw [plainKey]; exact decide_eq_true hplain, hplainv, rfl⟩

theorem members_exact {k : Value} (hv : Exact v) (hps : ∀ p ∈ ps, Exact p.2)
    (h : members n (toJson k ++ ':' :: (toJson v ++ restPairs ps) ++ '\x7d' :: r') =
      some (denotePairs ((k, v) :: ps), r)) :
    (∀ p ∈ (k, v) :: ps, plainKey p.1 = true ∧ plain p.2 = true) ∧ r = r' := by
  induction ps generalizing k v n with
  | nil =>
    cases n with
    | zero =>
      rw [members] at h
      cases h
    | succ n =>
      rw [restPairs, List.flatMap_nil, List.append_nil, List.append_assoc, List.cons_append,
        members, Option.bind_eq_some_iff] at h
      obtain ⟨r₁, hquote, h⟩ := h
      obtain ⟨⟨s, r₂⟩, hstring, h⟩ := Option.bind_eq_some_iff.mp h
      obtain ⟨r₃, hcolon, h⟩ := Option.bind_eq_some_iff.mp h
      obtain ⟨⟨x, r₄⟩, hvalue, h⟩ := Option.bind_eq_some_iff.mp h
      obtain ⟨hpair, h⟩ := following_some h
      obtain ⟨hkey, rfl⟩ := Prod.mk.inj hpair
      obtain ⟨hplain, hplainv, rfl⟩ :=
        member_exact hv (stops_cons (by decide) _) hquote hstring hkey hcolon hvalue
      rcases h with ⟨r₅, hcomma, -⟩ | ⟨-, -, hend⟩
      · cases hcomma
      · obtain rfl := Option.some.inj hend
        exact ⟨List.forall_mem_singleton.mpr ⟨hplain, hplainv⟩, rfl⟩
  | cons p ps ih =>
    cases n with
    | zero =>
      rw [members] at h
      cases h
    | succ n =>
      rw [restPairs_cons, List.append_assoc, List.cons_append, List.append_assoc, members,
        Option.bind_eq_some_iff] at h
      obtain ⟨r₁, hquote, h⟩ := h
      obtain ⟨⟨s, r₂⟩, hstring, h⟩ := Option.bind_eq_some_iff.mp h
      obtain ⟨r₃, hcolon, h⟩ := Option.bind_eq_some_iff.mp h
      obtain ⟨⟨x, r₄⟩, hvalue, h⟩ := Option.bind_eq_some_iff.mp h
      obtain ⟨hpair, h⟩ := following_some h
      obtain ⟨hkey, rfl⟩ := Prod.mk.inj hpair
      obtain ⟨hplain, hplainv, rfl⟩ :=
        member_exact hv (stops_cons (by decide) _) hquote hstring hkey hcolon hvalue
      rcases h with ⟨r₅, hcomma, hrest⟩ | ⟨hcomma, -⟩
      · obtain rfl := Option.some.inj hcomma
        obtain ⟨hall, rfl⟩ := ih (hps p List.mem_cons_self)
          (fun x hx => hps x (List.mem_cons_of_mem _ hx)) hrest
        exact ⟨List.forall_mem_cons.mpr ⟨⟨hplain, hplainv⟩, hall⟩, rfl⟩
      · cases hcomma

theorem exact_map (hps : ∀ p ∈ ps, Exact p.2) : Exact (.map ps) := by
  intro n r r' _ h
  obtain ⟨n, rfl⟩ := exists_round_of_some h
  rw [toJson_map, value_cons (by decide), if_neg (by decide), if_pos rfl, denote] at h
  obtain ⟨⟨xs, r₁⟩, hxs, h⟩ := Option.map_eq_some_iff.mp h
  obtain ⟨hobj, rfl⟩ := Prod.mk.inj h
  obtain rfl := Json.obj.inj hobj
  rw [plain, pairsPlain_iff]
  cases ps with
  | nil =>
    rw [pairsJson] at hxs
    obtain ⟨-, rfl⟩ := Prod.mk.inj (Option.some.inj hxs)
    exact ⟨fun p hp => absurd hp List.not_mem_nil, rfl⟩
  | cons p ps =>
    obtain ⟨k, v⟩ := p
    obtain ⟨hv, hps⟩ := List.forall_mem_cons.mp hps
    rw [pairsJson_cons, bracketed, List.append_assoc, expect_brace, ← List.append_assoc] at hxs
    exact members_exact hv hps hxs

theorem exact_all (v : Value) : Exact v := by
  induction v using Value.induct with
  | str s => exact exact_str s
  | int n => exact exact_int n
  | bool b => exact exact_bool b
  | vector vs ih => exact exact_vector ih
  | map ps ih => exact exact_map fun p hp => (ih p hp).2

/-- `to_json` makes of a value a JSON text that denotes the value exactly when no string needs an
escape and all keys are strings. -/
theorem parse_toJson_iff (v : Value) : parse (toJson v) = some (denote v) ↔ plain v = true := by
  constructor
  · intro h
    obtain ⟨w, hw, hvalue⟩ := parse_value h
    exact (exact_all v _ _ _ stops_nil (hvalue _ [] (Nat.le_refl _) stops_nil)).1
  · intro h
    have hread := reads_of_plain v h _ [] (Nat.le_refl _) stops_nil
    rw [List.append_nil] at hread
    rw [parse, hread, Option.bind_some]
    rfl

/-- A quote in a string ends it. -/
theorem parse_toJson_quote : ¬ ∀ v : Value, parse (toJson v) = some (denote v) := by
  intro h
  have hquote := h (.str ['a', '"', 'b'])
  have hnone : parse (toJson (.str ['a', '"', 'b'])) = none := by decide +kernel
  rw [hnone] at hquote
  cases hquote

end Seastar.Formatter
