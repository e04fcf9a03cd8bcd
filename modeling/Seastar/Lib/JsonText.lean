import Seastar.Lib.Json

/-!
What the parser of JSON takes from a text: the token or the value it finds does not depend on what
follows, and a string that is written without escapes is found again exactly when it needs none.
-/

namespace Lib.Json

variable {c d : Char} {cs e r s : List Char} {n : Nat}

/-! ## White space -/

theorem skipWs_of_not_ws (hc : isWs c = false) (cs : List Char) : skipWs (c :: cs) = c :: cs := by
  rw [skipWs, List.dropWhile_cons, if_neg (by simp [hc])]

theorem skipWs_append (h : skipWs e ≠ []) (r : List Char) : skipWs (e ++ r) = skipWs e ++ r := by
  rw [skipWs, skipWs, List.dropWhile_append, if_neg (by simpa [skipWs] using h)]

theorem skipWs_append_ws (h : skipWs e = []) (r : List Char) : skipWs (e ++ r) = skipWs r := by
  rw [skipWs, skipWs, List.dropWhile_append, if_pos (by simpa [skipWs] using h)]

/-- White space, and what begins with something else. -/
theorem skipWs_split (cs : List Char) : ∃ e, cs = e ++ skipWs cs ∧ skipWs e = [] := by
  refine ⟨cs.takeWhile isWs, List.takeWhile_append_dropWhile.symm, ?_⟩
  rw [skipWs, List.dropWhile_eq_nil_iff]
  intro c hc
  exact List.mem_takeWhile_imp hc

theorem not_ws_of_skipWs (h : skipWs cs = c :: r) : isWs c = false := by
  have hne : cs.dropWhile isWs ≠ [] := by
    rw [← skipWs, h]
    exact List.cons_ne_nil _ _
  have hhead := List.head_dropWhile_not isWs hne
  have hc : (cs.dropWhile isWs).head hne = c := by
    have h' : cs.dropWhile isWs = c :: r := h
    simp only [h', List.head_cons]
  rwa [hc] at hhead

theorem expect_some (h : expect c cs = some r) : ∃ e, cs = e ++ c :: r ∧ skipWs e = [] := by
  obtain ⟨e, hcs, he⟩ := skipWs_split cs
  rw [expect] at h
  cases hs : skipWs cs with
  | nil =>
    rw [hs] at h
    cases h
  | cons d r' =>
    rw [hs] at h
    by_cases hd : d = c
    · subst hd
      obtain rfl := Option.some.inj ((if_pos rfl).symm.trans h)
      rw [hs] at hcs
      exact ⟨e, hcs, he⟩
    · cases (if_neg hd).symm.trans h

theorem expect_ws (he : skipWs e = []) (hc : isWs c = false) (r : List Char) :
    expect c (e ++ c :: r) = some r := by
  rw [expect, skipWs_append_ws he, skipWs_of_not_ws hc]
  exact if_pos rfl

theorem expect_cons (hc : isWs c = false) (cs : List Char) : expect c (c :: cs) = some cs :=
  expect_ws (e := []) rfl hc cs

theorem expect_other (he : skipWs e = []) (hd : isWs d = false) (hne : d ≠ c) (r : List Char) :
    expect c (e ++ d :: r) = none := by
  rw [expect, skipWs_append_ws he, skipWs_of_not_ws hd]
  exact if_neg hne

/-- What is not expected in a text is not when the text goes on. -/
theorem expect_none (he : skipWs e ≠ []) (h : expect c (e ++ r) = none) (r' : List Char) :
    expect c (e ++ r') = none := by
  obtain ⟨d, s, hs⟩ := List.exists_cons_of_ne_nil he
  rw [expect, skipWs_append he, hs, List.cons_append] at h ⊢
  by_cases hd : d = c
  · cases (if_pos hd).symm.trans h
  · exact if_neg hd

/-! ## Strings -/

theorem hexDigits_local {k u v : Nat} (h : hexDigits k u cs = some (v, r)) :
    ∃ e, cs = e ++ r ∧ '"' ∉ e ∧ ∀ r', hexDigits k u (e ++ r') = some (v, r') := by
  induction k generalizing u cs with
  | zero =>
    obtain ⟨rfl, rfl⟩ := Prod.mk.inj (Option.some.inj h)
    exact ⟨[], rfl, List.not_mem_nil, fun _ => rfl⟩
  | succ k ih =>
    cases cs with
    | nil => cases h
    | cons c cs =>
      rw [hexDigits] at h
      cases hc : hexDigit c with
      | none =>
        rw [hc] at h
        cases h
      | some d =>
        rw [hc] at h
        obtain ⟨e, rfl, he, hlocal⟩ := ih h
        refine ⟨c :: e, rfl, ?_, fun r' => ?_⟩
        · intro hmem
          rcases List.mem_cons.mp hmem with rfl | hmem
          · cases hc
          · exact he hmem
        · rw [List.cons_append, hexDigits, hc]
          exact hlocal r'

theorem lowSurrogate_local {u : Nat} (h : lowSurrogate u cs = some (d, r)) :
    ∃ e, cs = e ++ r ∧ '"' ∉ e ∧ ∀ r', lowSurrogate u (e ++ r') = some (d, r') := by
  cases cs with
  | nil => cases h
  | cons a cs =>
    cases cs with
    | nil => cases h
    | cons b cs =>
      by_cases hab : a = '\\' ∧ b = 'u'
      · rw [lowSurrogate, if_pos hab, Option.bind_eq_some_iff] at h
        obtain ⟨⟨l, cs'⟩, hl, h⟩ := h
        obtain ⟨e, rfl, he, hlocal⟩ := hexDigits_local hl
        split at h
        · rename_i hpair
          obtain ⟨rfl, rfl⟩ := Prod.mk.inj (Option.some.inj h)
          refine ⟨a :: b :: e, rfl, ?_, fun r' => ?_⟩
          · rw [hab.1, hab.2]
            simpa using he
          · rw [List.cons_append, List.cons_append, lowSurrogate, if_pos hab, hlocal r',
              Option.bind_some]
            exact if_pos hpair
        · cases h
      · rw [lowSurrogate, if_neg hab] at h
        cases h

theorem unicodeEscape_local (h : unicodeEscape cs = some (d, r)) :
    ∃ e, cs = e ++ r ∧ '"' ∉ e ∧ ∀ r', unicodeEscape (e ++ r') = some (d, r') := by
  rw [unicodeEscape, Option.bind_eq_some_iff] at h
  obtain ⟨⟨u, cs'⟩, hu, h⟩ := h
  obtain ⟨e, rfl, he, hlocal⟩ := hexDigits_local hu
  split at h
  · rename_i hbmp
    obtain ⟨rfl, rfl⟩ := Prod.mk.inj (Option.some.inj h)
    refine ⟨e, rfl, he, fun r' => ?_⟩
    rw [unicodeEscape, hlocal r', Option.bind_some]
    exact if_pos hbmp
  · rename_i hbmp
    obtain ⟨e', rfl, he', hlocal'⟩ := lowSurrogate_local h
    refine ⟨e ++ e', (List.append_assoc _ _ _).symm, ?_, fun r' => ?_⟩
    · rw [List.mem_append]
      exact fun hmem => hmem.elim he he'
    · rw [List.append_assoc, unicodeEscape, hlocal, Option.bind_some, if_neg hbmp, hlocal']

/-- The text of a character of a string: itself, or an escape; only the escape of a quote has a
quote in it. -/
def IsText (e : List Char) (d : Char) : Prop :=
  e = [d] ∧ isPlain d = true ∨
    ∃ e', e = '\\' :: e' ∧ e' ≠ [] ∧ ('"' ∈ e' → d = '"' ∧ e' = ['"'])

theorem escape_local (h : escape cs = some (d, r)) :
    ∃ e, cs = e ++ r ∧ e ≠ [] ∧ ('"' ∈ e → d = '"' ∧ e = ['"']) ∧
      ∀ r', escape (e ++ r') = some (d, r') := by
  cases cs with
  | nil => cases h
  | cons c cs =>
    rw [escape] at h
    by_cases hc : c = 'u'
    · rw [if_pos hc] at h
      obtain ⟨e, rfl, he, hlocal⟩ := unicodeEscape_local h
      refine ⟨c :: e, rfl, List.cons_ne_nil _ _, fun hmem => ?_, fun r' => ?_⟩
      · rw [hc] at hmem
        exact absurd ((List.mem_cons.mp hmem).resolve_left (by decide)) he
      · rw [List.cons_append, escape, if_pos hc, hlocal]
    · rw [if_neg hc, Option.map_eq_some_iff] at h
      obtain ⟨d', hd, h⟩ := h
      obtain ⟨rfl, rfl⟩ := Prod.mk.inj h
      refine ⟨[c], rfl, List.cons_ne_nil _ _, fun hmem => ?_, fun r' => ?_⟩
      · obtain rfl := List.mem_singleton.mp hmem
        exact ⟨(Option.some.inj hd).symm, rfl⟩
      · rw [List.cons_append, List.nil_append, escape, if_neg hc, hd]
        rfl

theorem nextChar_local (h : nextChar cs = some (d, r)) :
    ∃ e, cs = e ++ r ∧ IsText e d ∧ ∀ r', nextChar (e ++ r') = some (d, r') := by
  cases cs with
  | nil => cases h
  | cons c cs =>
    rw [nextChar] at h
    by_cases hc : c = '\\'
    · rw [if_pos hc] at h
      obtain ⟨e, rfl, hne, hquote, hlocal⟩ := escape_local h
      refine ⟨c :: e, rfl, Or.inr ⟨e, by rw [hc], hne, hquote⟩, fun r' => ?_⟩
      rw [List.cons_append, nextChar, if_pos hc, hlocal]
    · rw [if_neg hc] at h
      by_cases hplain : isPlain c = true
      · obtain ⟨rfl, rfl⟩ := Prod.mk.inj (Option.some.inj ((if_pos hplain).symm.trans h))
        refine ⟨[c], rfl, Or.inl ⟨rfl, hplain⟩, fun r' => ?_⟩
        rw [List.cons_append, List.nil_append, nextChar, if_neg hc]
        exact if_pos hplain
      · cases (if_neg hplain).symm.trans h

theorem IsText.length_pos (h : IsText e d) : 0 < e.length := by
  rcases h with ⟨rfl, -⟩ | ⟨e', rfl, -⟩
  · exact Nat.one_pos
  · exact Nat.succ_pos _

/-- The text of a character does not begin with a quote. -/
theorem IsText.cons (h : IsText e d) : ∃ a e', e = a :: e' ∧ a ≠ '"' := by
  rcases h with ⟨rfl, hplain⟩ | ⟨e', rfl, -⟩
  · refine ⟨d, [], rfl, ?_⟩
    rintro rfl
    cases hplain
  · exact ⟨_, _, rfl, by decide⟩

theorem chars_local (h : chars n cs = some (s, r)) :
    ∃ e, cs = e ++ r ∧ 0 < e.length ∧
      ∀ m r', e.length ≤ m → chars m (e ++ r') = some (s, r') := by
  induction n generalizing cs s with
  | zero => cases h
  | succ n ih =>
    cases cs with
    | nil => cases h
    | cons c cs =>
      rw [chars] at h
      by_cases hc : c = '"'
      · rw [if_pos hc] at h
        obtain ⟨rfl, rfl⟩ := Prod.mk.inj (Option.some.inj h)
        refine ⟨[c], rfl, Nat.one_pos, fun m r' hm => ?_⟩
        obtain ⟨m, rfl⟩ := Nat.exists_eq_succ_of_ne_zero (Nat.pos_iff_ne_zero.mp hm)
        rw [List.cons_append, List.nil_append, chars, if_pos hc]
      · rw [if_neg hc, Option.bind_eq_some_iff] at h
        obtain ⟨⟨d, cs'⟩, hd, h⟩ := h
        obtain ⟨⟨s', r'⟩, hs, h⟩ := Option.map_eq_some_iff.mp h
        obtain ⟨rfl, rfl⟩ := Prod.mk.inj h
        obtain ⟨e, he, htext, hlocal⟩ := nextChar_local hd
        obtain ⟨e', rfl, hpos, hlocal'⟩ := ih hs
        refine ⟨e ++ e', by rw [he, List.append_assoc], ?_, fun m r'' hm => ?_⟩
        · rw [List.length_append]
          omega
        · have hlen := htext.length_pos
          rw [List.length_append] at hm
          obtain ⟨m, rfl⟩ := Nat.exists_eq_succ_of_ne_zero (show m ≠ 0 by omega)
          obtain ⟨a, e₁, rfl, ha⟩ := htext.cons
          rw [List.append_assoc, List.cons_append, chars, if_neg ha, ← List.cons_append, hlocal,
            Option.bind_some, hlocal' m r'' (by omega)]
          rfl

theorem string_local (h : string cs = some (s, r)) :
    ∃ e, cs = e ++ r ∧ 0 < e.length ∧ ∀ r', string (e ++ r') = some (s, r') := by
  obtain ⟨e, rfl, hpos, hlocal⟩ := chars_local h
  exact ⟨e, rfl, hpos, fun r' => hlocal _ r' (by rw [List.length_append]; omega)⟩

/-- A text that needs no escapes. -/
def Plain (u : List Char) : Prop := ∀ c ∈ u, isPlain c = true

instance (u : List Char) : Decidable (Plain u) := inferInstanceAs (Decidable (∀ c ∈ u, _))

theorem plain_ne_quote (h : isPlain c = true) : c ≠ '"' := by
  rintro rfl
  cases h

/-- Where the text `u` of a string is read, after escapes have made the reading run ahead by `l` of
what is to be found, it is found only if there were none, and there are none. -/
theorem chars_raw {l u X : List Char} (hl : '"' ∉ l) (h : chars n (u ++ '"' :: X) = some (s, r))
    (hpre : l ++ u <+: s) : l = [] ∧ Plain u ∧ s = u ∧ r = X := by
  induction n generalizing l u s with
  | zero => cases h
  | succ n ih =>
    cases u with
    | nil =>
      rw [List.nil_append, chars, if_pos rfl] at h
      obtain ⟨rfl, rfl⟩ := Prod.mk.inj (Option.some.inj h)
      rw [List.append_nil, List.prefix_nil] at hpre
      exact ⟨hpre, fun c hc => absurd hc List.not_mem_nil, rfl, rfl⟩
    | cons a u =>
      rw [List.cons_append, chars] at h
      by_cases ha : a = '"'
      · rw [if_pos ha] at h
        obtain ⟨rfl, -⟩ := Prod.mk.inj (Option.some.inj h)
        rw [List.prefix_nil] at hpre
        exact absurd hpre (List.append_ne_nil_of_right_ne_nil _ (List.cons_ne_nil _ _))
      · rw [if_neg ha, Option.bind_eq_some_iff] at h
        obtain ⟨⟨d, cs⟩, hd, h⟩ := h
        obtain ⟨⟨s', r'⟩, hs, h⟩ := Option.map_eq_some_iff.mp h
        obtain ⟨rfl, rfl⟩ := Prod.mk.inj h
        obtain ⟨e, he, htext, -⟩ := nextChar_local hd
        -- the first character that is found is not a quote, if it is one of those that are ahead
        have hquote : ∀ b t, l ++ a :: u = b :: t → b = '"' → False := by
          intro b t hb hbq
          cases l with
          | nil => exact ha ((List.cons.inj hb).1.trans hbq)
          | cons b' l =>
            obtain ⟨rfl, -⟩ := List.cons.inj hb
            exact hl (hbq ▸ List.mem_cons_self)
        have hhead : ∀ b t, l ++ a :: u = b :: t → b = d ∧ t <+: s' := by
          intro b t hb
          rw [hb] at hpre
          exact List.cons_prefix_cons.mp hpre
        have hsplit : ∃ k, a :: u = e ++ k ∧ cs = k ++ '"' :: X := by
          rw [← List.cons_append] at he
          rcases List.append_eq_append_iff.mp he with ⟨k, hek, hk⟩ | ⟨k, hwk, hk⟩
          · cases k with
            | nil =>
              rw [List.append_nil] at hek
              exact ⟨[], by rw [List.append_nil, hek], hk.symm⟩
            | cons q k =>
              -- the quote at the end of the text is the one of an escape
              exfalso
              obtain ⟨rfl, -⟩ := List.cons.inj hk
              rcases htext with ⟨rfl, -⟩ | ⟨e', rfl, -, hq⟩
              · have := congrArg List.length hek
                simp only [List.length_append, List.length_cons, List.length_nil] at this
                omega
              · obtain ⟨hau, heu⟩ := List.cons.inj hek
                have hdq := (hq (by rw [heu]; simp)).1
                obtain ⟨b, t, hb⟩ := List.exists_cons_of_ne_nil
                  (List.append_ne_nil_of_right_ne_nil l (List.cons_ne_nil a u))
                exact hquote b t hb ((hhead b t hb).1.trans hdq)
          · exact ⟨k, hwk, hk⟩
        obtain ⟨k, hwk, rfl⟩ := hsplit
        rcases htext with ⟨rfl, hplain⟩ | ⟨e', rfl, hne, hq⟩
        · obtain ⟨rfl, rfl⟩ := List.cons.inj hwk
          cases l with
          | nil =>
            obtain ⟨-, hpre'⟩ := hhead a u rfl
            obtain ⟨-, hk, rfl, rfl⟩ := ih hl hs hpre'
            refine ⟨rfl, fun c hc => ?_, rfl, rfl⟩
            rcases List.mem_cons.mp hc with rfl | hc
            · exact hplain
            · exact hk c hc
          | cons b l =>
            obtain ⟨-, hpre'⟩ := hhead b (l ++ a :: u) rfl
            have hmore : '"' ∉ l ++ [a] := by
              rw [List.mem_append, List.mem_singleton]
              rintro (hmem | hmem)
              · exact hl (List.mem_cons_of_mem _ hmem)
              · exact ha hmem.symm
            obtain ⟨hnil, -⟩ := ih hmore hs (by simpa using hpre')
            exact absurd hnil (List.append_ne_nil_of_right_ne_nil _ (List.cons_ne_nil _ _))
        · obtain ⟨rfl, rfl⟩ := List.cons.inj hwk
          have hclean : '"' ∉ e' := by
            intro hmem
            obtain ⟨b, t, hb⟩ := List.exists_cons_of_ne_nil
              (List.append_ne_nil_of_right_ne_nil l (List.cons_ne_nil '\\' (e' ++ k)))
            exact hquote b t hb ((hhead b t hb).1.trans (hq hmem).1)
          cases l with
          | nil =>
            obtain ⟨-, hpre'⟩ := hhead '\\' (e' ++ k) rfl
            exact absurd (ih hclean hs hpre').1 hne
          | cons b l =>
            obtain ⟨-, hpre'⟩ := hhead b (l ++ '\\' :: (e' ++ k)) rfl
            have hmore : '"' ∉ l ++ '\\' :: e' := by
              rw [List.mem_append, List.mem_cons]
              rintro (hmem | hmem | hmem)
              · exact hl (List.mem_cons_of_mem _ hmem)
              · cases hmem
              · exact hclean hmem
            obtain ⟨hnil, -⟩ := ih hmore hs (by simpa using hpre')
            exact absurd hnil (List.append_ne_nil_of_right_ne_nil _ (List.cons_ne_nil _ _))

/-- A text between quotes that a string begins with is read as this string only if it is all of the
string, and needs no escapes. -/
theorem string_raw {u X : List Char} (h : string (u ++ '"' :: X) = some (s, r)) (hpre : u <+: s) :
    Plain u ∧ s = u ∧ r = X := by
  obtain ⟨-, hrest⟩ := chars_raw List.not_mem_nil h hpre
  exact hrest

theorem chars_plain {u : List Char} (hu : Plain u) (X : List Char) (hn : u.length < n) :
    chars n (u ++ '"' :: X) = some (u, X) := by
  induction u generalizing n with
  | nil =>
    obtain ⟨n, rfl⟩ := Nat.exists_eq_succ_of_ne_zero (Nat.pos_iff_ne_zero.mp hn)
    rw [List.nil_append, chars, if_pos rfl]
  | cons c u ih =>
    rw [List.length_cons] at hn
    obtain ⟨n, rfl⟩ := Nat.exists_eq_succ_of_ne_zero (show n ≠ 0 by omega)
    have hc := hu c List.mem_cons_self
    have hback : c ≠ '\\' := by
      rintro rfl
      cases hc
    rw [List.cons_append, chars, if_neg (plain_ne_quote hc), nextChar, if_neg hback, if_pos hc,
      Option.bind_some, ih (fun d hd => hu d (List.mem_cons_of_mem _ hd)) (by omega)]
    rfl

theorem string_plain {u : List Char} (hu : Plain u) (X : List Char) :
    string (u ++ '"' :: X) = some (u, X) :=
  chars_plain hu X (by simp)

/-! ## Values -/

/-- What does not continue a number. -/
def Stops (r : List Char) : Prop := ∀ c, r.head? = some c → isNumChar c = false

theorem stops_nil : Stops [] := fun _ h => by cases h

theorem stops_cons (h : isNumChar c = false) (r : List Char) : Stops (c :: r) := by
  intro d hd
  obtain rfl := Option.some.inj hd
  exact h

theorem not_num_of_ws (h : isWs c = true) : isNumChar c = false := by
  simp only [isWs, Bool.or_eq_true, beq_iff_eq] at h
  rcases h with ((rfl | rfl) | rfl) | rfl <;> decide

/-- White space and something that does not continue a number. -/
theorem stops_append (he : skipWs e = []) (hr : Stops r) : Stops (e ++ r) := by
  cases e with
  | nil => exact hr
  | cons c e =>
    have hc : isWs c = true := by
      rw [skipWs, List.dropWhile_eq_nil_iff] at he
      exact he c List.mem_cons_self
    exact stops_cons (not_num_of_ws hc) (e ++ r)

theorem takeWhile_stops (he : ∀ c ∈ e, isNumChar c = true) (hr : Stops r) :
    (e ++ r).takeWhile isNumChar = e ∧ (e ++ r).dropWhile isNumChar = r := by
  have hnil : r.takeWhile isNumChar = [] ∧ r.dropWhile isNumChar = r := by
    cases r with
    | nil => exact ⟨rfl, rfl⟩
    | cons c r =>
      have hc := hr c rfl
      rw [List.takeWhile_cons, List.dropWhile_cons, hc]
      exact ⟨rfl, rfl⟩
  rw [List.takeWhile_append_of_pos he, List.dropWhile_append_of_pos he, hnil.1, hnil.2,
    List.append_nil]
  exact ⟨rfl, rfl⟩

theorem literal_local {v : Json} (h : literal cs = some (v, r)) :
    ∃ e, cs = e ++ r ∧ e ≠ [] ∧ ∀ r', literal (e ++ r') = some (v, r') := by
  have htext : ∀ {l : List Char}, l.isPrefixOf cs = true → cs = l ++ cs.drop l.length := by
    intro l hl
    obtain ⟨t, rfl⟩ := List.isPrefixOf_iff_prefix.mp hl
    rw [List.drop_left]
  rw [literal] at h
  split at h
  · rename_i htrue
    obtain ⟨rfl, rfl⟩ := Prod.mk.inj (Option.some.inj h)
    exact ⟨['t', 'r', 'u', 'e'], htext htrue, by simp, fun r' => rfl⟩
  · split at h
    · rename_i hfalse
      obtain ⟨rfl, rfl⟩ := Prod.mk.inj (Option.some.inj h)
      exact ⟨['f', 'a', 'l', 's', 'e'], htext hfalse, by simp, fun r' => rfl⟩
    · split at h
      · rename_i hnull
        obtain ⟨rfl, rfl⟩ := Prod.mk.inj (Option.some.inj h)
        exact ⟨['n', 'u', 'l', 'l'], htext hnull, by simp, fun r' => rfl⟩
      · cases h

theorem scalar_local {v : Json} (h : scalar c cs = some (v, r)) :
    ∃ e, cs = e ++ r ∧ ∀ r', Stops r' → scalar c (e ++ r') = some (v, r') := by
  rw [scalar] at h
  by_cases hquote : c = '"'
  · rw [if_pos hquote] at h
    obtain ⟨⟨s, r₁⟩, hs, h⟩ := Option.map_eq_some_iff.mp h
    obtain ⟨rfl, rfl⟩ := Prod.mk.inj h
    obtain ⟨e, rfl, -, hlocal⟩ := string_local hs
    refine ⟨e, rfl, fun r' _ => ?_⟩
    rw [scalar, if_pos hquote, hlocal r']
    rfl
  · rw [if_neg hquote] at h
    by_cases hnum : isNumChar c = true
    · rw [if_pos hnum] at h
      obtain ⟨q, hq, h⟩ := Option.map_eq_some_iff.mp h
      obtain ⟨rfl, rfl⟩ := Prod.mk.inj h
      have htake : (c :: cs).takeWhile isNumChar = c :: cs.takeWhile isNumChar := by
        rw [List.takeWhile_cons, if_pos hnum]
      have hdrop : (c :: cs).dropWhile isNumChar = cs.dropWhile isNumChar := by
        rw [List.dropWhile_cons, if_pos hnum]
      refine ⟨cs.takeWhile isNumChar, ?_, fun r' hr' => ?_⟩
      · rw [hdrop, List.takeWhile_append_dropWhile]
      · obtain ⟨h₁, h₂⟩ := takeWhile_stops (e := c :: cs.takeWhile isNumChar) (by
          intro d hd
          rcases List.mem_cons.mp hd with rfl | hd
          · exact hnum
          · exact List.mem_takeWhile_imp hd) hr'
        rw [scalar, if_neg hquote, if_pos hnum, ← List.cons_append, h₁, h₂, ← htake, hq]
        rfl
    · rw [if_neg hnum] at h
      obtain ⟨e, he, hne, hlocal⟩ := literal_local h
      obtain ⟨a, e, rfl⟩ := List.exists_cons_of_ne_nil hne
      obtain ⟨rfl, rfl⟩ := List.cons.inj he
      refine ⟨e, rfl, fun r' _ => ?_⟩
      rw [scalar, if_neg hquote, if_neg hnum]
      exact hlocal r'

/-- What the parsers take of a text: `2 * e.length` rounds are enough for the text `e`. -/
def Local {α : Type} (p : Nat → List Char → Option (α × List Char)) (n : Nat) : Prop :=
  ∀ cs a r, p n cs = some (a, r) → ∃ e, cs = e ++ r ∧ skipWs e ≠ [] ∧
    ∀ m r', 2 * e.length ≤ m → Stops r' → p m (e ++ r') = some (a, r')

theorem skipWs_ne_nil {w : List Char} (hw : skipWs w = []) (hc : isWs c = false)
    (e : List Char) : skipWs (w ++ c :: e) ≠ [] := by
  rw [skipWs_append_ws hw, skipWs_of_not_ws hc]
  exact List.cons_ne_nil _ _

section Lists

variable {α : Type} {p : Nat → List Char → Option (List α × List Char)} {close : Char}
  {as : List α}

/-- A list between brackets, of which there may be none. -/
theorem bracketed_local (hclose : isWs close = false) (hp : Local p n)
    (h : bracketed close (p n) cs = some (as, r)) :
    ∃ e, cs = e ++ r ∧ ∀ m r', 2 * e.length ≤ m → Stops r' →
      bracketed close (p m) (e ++ r') = some (as, r') := by
  rw [bracketed] at h
  cases hexp : expect close cs with
  | some r₁ =>
    rw [hexp] at h
    obtain ⟨rfl, rfl⟩ := Prod.mk.inj (Option.some.inj h)
    obtain ⟨w, rfl, hw⟩ := expect_some hexp
    refine ⟨w ++ [close], by simp, fun m r' _ _ => ?_⟩
    rw [List.append_assoc, bracketed, List.cons_append, List.nil_append, expect_ws hw hclose]
  | none =>
    rw [hexp] at h
    obtain ⟨e, rfl, he, hlocal⟩ := hp _ _ _ h
    refine ⟨e, rfl, fun m r' hm hr' => ?_⟩
    rw [bracketed, expect_none he hexp]
    exact hlocal m r' hm hr'

/-- What comes after an element begins with a comma or the end. -/
theorem following_local (hclose : isWs close = false) (hstop : isNumChar close = false)
    (hp : Local p n) {a : α} (h : following close (p n) a cs = some (as, r)) :
    ∃ e, cs = e ++ r ∧ 0 < e.length ∧ (∀ r', Stops (e ++ r')) ∧
      ∀ m r', 2 * (e.length - 1) ≤ m → Stops r' →
        following close (p m) a (e ++ r') = some (as, r') := by
  rw [following] at h
  cases hexp : expect ',' cs with
  | some r₁ =>
    rw [hexp] at h
    obtain ⟨⟨as', r₂⟩, hrest, h⟩ := Option.map_eq_some_iff.mp h
    obtain ⟨rfl, rfl⟩ := Prod.mk.inj h
    obtain ⟨w, rfl, hw⟩ := expect_some hexp
    obtain ⟨e, rfl, -, hlocal⟩ := hp _ _ _ hrest
    refine ⟨w ++ ',' :: e, by simp, by simp, fun r' => ?_, fun m r' hm hr' => ?_⟩
    · rw [List.append_assoc]
      exact stops_append hw (stops_cons (by decide) _)
    · rw [List.length_append, List.length_cons] at hm
      rw [List.append_assoc, List.cons_append, following, expect_ws hw (by decide)]
      simp only [hlocal m r' (by omega) hr', Option.map_some]
  | none =>
    rw [hexp] at h
    obtain ⟨r₁, hend, h⟩ := Option.map_eq_some_iff.mp h
    obtain ⟨rfl, rfl⟩ := Prod.mk.inj h
    obtain ⟨w, rfl, hw⟩ := expect_some hend
    have hnone : skipWs (w ++ [close]) ≠ [] := skipWs_ne_nil hw hclose []
    refine ⟨w ++ [close], by simp, by simp, fun r' => ?_, fun m r' _ _ => ?_⟩
    · rw [List.append_assoc]
      exact stops_append hw (stops_cons hstop _)
    · have hexp' : expect ',' (w ++ [close] ++ r') = none :=
        expect_none hnone (by rw [List.append_assoc]; exact hexp) r'
      rw [following, hexp', List.append_assoc, List.cons_append, List.nil_append,
        expect_ws hw hclose]
      rfl

/-- What is found in a list begins with the element before it. -/
theorem following_some {a b : α} {bs : List α}
    (h : following close (p n) a cs = some (b :: bs, r)) : a = b ∧
      ((∃ r₁, expect ',' cs = some r₁ ∧ p n r₁ = some (bs, r)) ∨
        expect ',' cs = none ∧ bs = [] ∧ expect close cs = some r) := by
  rw [following] at h
  cases hexp : expect ',' cs with
  | some r₁ =>
    rw [hexp] at h
    obtain ⟨⟨as', r₂⟩, hrest, h⟩ := Option.map_eq_some_iff.mp h
    obtain ⟨hcons, rfl⟩ := Prod.mk.inj h
    obtain ⟨rfl, rfl⟩ := List.cons.inj hcons
    exact ⟨rfl, Or.inl ⟨r₁, rfl, hrest⟩⟩
  | none =>
    rw [hexp] at h
    obtain ⟨r₁, hend, h⟩ := Option.map_eq_some_iff.mp h
    obtain ⟨hcons, rfl⟩ := Prod.mk.inj h
    obtain ⟨rfl, rfl⟩ := List.cons.inj hcons
    exact ⟨rfl, Or.inr ⟨rfl, rfl, hend⟩⟩

end Lists

theorem value_succ {w : List Char} (hw : skipWs w = []) (hc : isWs c = false) (n : Nat)
    (cs : List Char) : value (n + 1) (w ++ c :: cs) =
      if c = '[' then (bracketed ']' (elements n) cs).map fun x => (.arr x.1, x.2)
      else if c = '\x7b' then (bracketed '\x7d' (members n) cs).map fun x => (.obj x.1, x.2)
      else scalar c cs := by
  rw [value, skipWs_append_ws hw, skipWs_of_not_ws hc]

/-- White space before a value is skipped. -/
theorem value_ws {w : List Char} (hw : skipWs w = []) (n : Nat) (cs : List Char) :
    value (n + 1) (w ++ cs) = value (n + 1) cs := by
  rw [value, value, skipWs_append_ws hw]

theorem value_cons (hc : isWs c = false) (n : Nat) (cs : List Char) :
    value (n + 1) (c :: cs) =
      if c = '[' then (bracketed ']' (elements n) cs).map fun x => (.arr x.1, x.2)
      else if c = '\x7b' then (bracketed '\x7d' (members n) cs).map fun x => (.obj x.1, x.2)
      else scalar c cs :=
  value_succ (w := []) rfl hc n cs

theorem members_ws {w : List Char} (hw : skipWs w = []) (n : Nat) (cs : List Char) :
    members (n + 1) (w ++ cs) = members (n + 1) cs := by
  rw [members, members, expect, expect, skipWs_append_ws hw]

theorem value_succ_local (helements : Local elements n) (hmembers : Local members n) :
    Local value (n + 1) := by
  intro cs v r h
  obtain ⟨w, hcs, hw⟩ := skipWs_split cs
  cases hs : skipWs cs with
  | nil =>
    rw [value, hs] at h
    cases h
  | cons c cs₁ =>
    have hc := not_ws_of_skipWs hs
    rw [hs] at hcs
    rw [hcs, value_succ hw hc] at h
    -- the value is `c` and what is taken of the text behind it
    have hfind : ∀ e, cs₁ = e ++ r → (∀ m r', 2 * e.length + 1 ≤ m → Stops r' →
        value (m + 1) (w ++ c :: (e ++ r')) = some (v, r')) →
        ∃ e, cs = e ++ r ∧ skipWs e ≠ [] ∧
          ∀ m r', 2 * e.length ≤ m → Stops r' → value m (e ++ r') = some (v, r') := by
      intro e he hlocal
      refine ⟨w ++ c :: e, by rw [hcs, he]; simp, skipWs_ne_nil hw hc e, fun m r' hm hr' => ?_⟩
      rw [List.length_append, List.length_cons] at hm
      obtain ⟨m, rfl⟩ := Nat.exists_eq_succ_of_ne_zero (show m ≠ 0 by omega)
      rw [List.append_assoc, List.cons_append]
      exact hlocal m r' (by omega) hr'
    by_cases harr : c = '['
    · rw [if_pos harr] at h
      obtain ⟨⟨vs, r₁⟩, hvs, h⟩ := Option.map_eq_some_iff.mp h
      obtain ⟨rfl, rfl⟩ := Prod.mk.inj h
      obtain ⟨e, he, hlocal⟩ := bracketed_local (by decide) helements hvs
      refine hfind e he fun m r' hm hr' => ?_
      rw [value_succ hw hc, if_pos harr, hlocal m r' (by omega) hr']
      rfl
    · rw [if_neg harr] at h
      by_cases hobj : c = '\x7b'
      · rw [if_pos hobj] at h
        obtain ⟨⟨ms, r₁⟩, hms, h⟩ := Option.map_eq_some_iff.mp h
        obtain ⟨rfl, rfl⟩ := Prod.mk.inj h
        obtain ⟨e, he, hlocal⟩ := bracketed_local (by decide) hmembers hms
        refine hfind e he fun m r' hm hr' => ?_
        rw [value_succ hw hc, if_neg harr, if_pos hobj, hlocal m r' (by omega) hr']
        rfl
      · rw [if_neg hobj] at h
        obtain ⟨e, he, hlocal⟩ := scalar_local h
        refine hfind e he fun m r' _ hr' => ?_
        rw [value_succ hw hc, if_neg harr, if_neg hobj, hlocal r' hr']

theorem elements_succ_local (hvalue : Local value n) (helements : Local elements n) :
    Local elements (n + 1) := by
  intro cs vs r h
  rw [elements, Option.bind_eq_some_iff] at h
  obtain ⟨⟨v, r₁⟩, hv, h⟩ := h
  obtain ⟨e, rfl, hne, hlocal⟩ := hvalue _ _ _ hv
  obtain ⟨e', rfl, hpos, hstops, hlocal'⟩ :=
    following_local (by decide) (by decide) helements h
  refine ⟨e ++ e', by rw [List.append_assoc], ?_, fun m r' hm hr' => ?_⟩
  · rw [skipWs_append hne]
    exact List.append_ne_nil_of_left_ne_nil hne e'
  · rw [List.length_append] at hm
    obtain ⟨m, rfl⟩ := Nat.exists_eq_succ_of_ne_zero (show m ≠ 0 by omega)
    rw [List.append_assoc, elements, hlocal m _ (by omega) (hstops r'), Option.bind_some]
    exact hlocal' m r' (by omega) hr'

theorem members_succ_local (hvalue : Local value n) (hmembers : Local members n) :
    Local members (n + 1) := by
  intro cs ms r h
  rw [members, Option.bind_eq_some_iff] at h
  obtain ⟨k, hk, h₁⟩ := h
  obtain ⟨⟨key, r₁⟩, hkey, h₂⟩ := Option.bind_eq_some_iff.mp h₁
  obtain ⟨r₂, hcolon, h₃⟩ := Option.bind_eq_some_iff.mp h₂
  obtain ⟨⟨v, r₃⟩, hv, h₄⟩ := Option.bind_eq_some_iff.mp h₃
  obtain ⟨w, rfl, hw⟩ := expect_some hk
  obtain ⟨e, rfl, -, hlocal⟩ := string_local hkey
  obtain ⟨w', rfl, hw'⟩ := expect_some hcolon
  obtain ⟨e', rfl, -, hlocal'⟩ := hvalue _ _ _ hv
  obtain ⟨e'', rfl, hpos, hstops, hlocal''⟩ :=
    following_local (by decide) (by decide) hmembers h₄
  refine ⟨w ++ '"' :: (e ++ (w' ++ ':' :: (e' ++ e''))), by simp,
    skipWs_ne_nil hw (by decide) _, fun m r' hm hr' => ?_⟩
  simp only [List.length_append, List.length_cons] at hm
  obtain ⟨m, rfl⟩ := Nat.exists_eq_succ_of_ne_zero (show m ≠ 0 by omega)
  simp only [List.append_assoc, List.cons_append]
  rw [members, expect_ws hw (by decide), Option.bind_some, hlocal, Option.bind_some,
    expect_ws hw' (by decide), Option.bind_some, hlocal' m _ (by omega) (hstops r'),
    Option.bind_some]
  exact hlocal'' m r' (by omega) hr'

/-- The parsers read the text of what they find, and nothing behind it. -/
theorem all_local (n : Nat) : Local value n ∧ Local elements n ∧ Local members n := by
  induction n with
  | zero =>
    refine ⟨?_, ?_, ?_⟩
    · intro cs v r h
      rw [value] at h
      cases h
    · intro cs vs r h
      rw [elements] at h
      cases h
    · intro cs ms r h
      rw [members] at h
      cases h
  | succ n ih =>
    obtain ⟨hvalue, helements, hmembers⟩ := ih
    exact ⟨value_succ_local helements hmembers, elements_succ_local hvalue helements,
      members_succ_local hvalue hmembers⟩

/-- The text of a value, with white space behind it, has that value wherever it stands. -/
theorem parse_value {v : Json} (h : parse cs = some v) :
    ∃ w, skipWs w = [] ∧ ∀ m r', 2 * cs.length ≤ m → Stops r' →
      value m (cs ++ r') = some (v, w ++ r') := by
  rw [parse, Option.bind_eq_some_iff] at h
  obtain ⟨⟨v', w⟩, hv, h⟩ := h
  split at h
  · rename_i hw
    obtain rfl := Option.some.inj h
    obtain ⟨e, rfl, -, hlocal⟩ := (all_local _).1 _ _ _ hv
    refine ⟨w, hw, fun m r' hm hr' => ?_⟩
    rw [List.length_append] at hm
    rw [List.append_assoc]
    exact hlocal m _ (by omega) (stops_append hw hr')
  · cases h

end Lib.Json
