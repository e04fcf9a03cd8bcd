import Seastar.Http.BufferReplace

/-!
What the content replacement writes. What is still to be written is the parked text and all that
follows it with its occurrences replaced, and a round of `put` keeps that.

There is one exception. After two parked braces a third one ends the match, both braces go out, and
the search goes on behind them, although the second of them may be the first of an occurrence. In
one buffer this does not happen, since only one brace is parked before the next one is looked at.
-/

namespace Seastar.Http

open Lib.Replace

variable {values : List (Bytes × Bytes)} {e : Bytes × Bytes} {q buf out s t : Bytes}

/-! ## The rounds of `put` -/

/-- What `put` does with a buffer: rounds until the buffer is empty. -/
inductive Rounds (values : List (Bytes × Bytes)) : Bytes → Bytes → Bytes → Bytes → Prop
  | last {q buf out q' : Bytes} : Round values q buf out [] q' → Rounds values q buf out q'
  | next {q buf out buf' q₁ out' q' : Bytes} : Round values q buf out buf' q₁ → buf' ≠ [] →
      Valid values q₁ → Rounds values q₁ buf' out' q' → Rounds values q buf (out ++ out') q'

/-- How many rounds are enough for the buffer. -/
def need (q buf : Bytes) : Nat := 2 * buf.length - if q = [] then 1 else 0

/-- A round takes bytes of the buffer, or gives up what is parked. -/
theorem Round.need_lt {buf' q' : Bytes} (h : Round values q buf out buf' q') (hb : buf' ≠ []) :
    need q' buf' < need q buf := by
  have hpos := List.length_pos_iff.mpr hb
  cases h with
  | plain => exact absurd rfl hb
  | brace =>
    have hle : need (if values = [] then [] else [openBrace]) buf' ≤ 2 * buf'.length :=
      Nat.sub_le _ _
    have hlen : need [] (out ++ openBrace :: buf') = 2 * (out.length + (buf'.length + 1)) - 1 := by
      simp [need]
    omega
  | @full q buf k v buf' hq hp heq hlt =>
    have hlen := congrArg List.length heq
    rw [List.length_append, List.length_append] at hlen
    simp only [need, if_neg hq, if_true]
    omega
  | more => exact absurd rfl hb
  | fail hq =>
    simp only [need, if_neg hq, if_true]
    omega

theorem putLoop_rounds (hv : Braced values) {n : Nat} (hq : Valid values q) (hb : buf ≠ [])
    (hn : need q buf ≤ n) (w : Bytes) :
    ∃ out q', ContentReplaceDataSink.putLoop n buf ⟨⟨values, current values q⟩, w⟩ =
        some ⟨⟨values, current values q'⟩, w ++ out⟩ ∧
      Rounds values q buf out q' ∧ Valid values q' := by
  induction n generalizing q buf w with
  | zero =>
    have hpos := List.length_pos_iff.mpr hb
    rw [need] at hn
    split at hn <;> omega
  | succ n ih =>
    obtain ⟨out, buf', q', hr, hround, hq'⟩ := replace_round hv hq hb
    rw [ContentReplaceDataSink.putLoop, hr]
    by_cases hb' : buf' = []
    · subst hb'
      exact ⟨out, q', rfl, .last hround, hq'⟩
    · have hempty : buf'.isEmpty = false := by simpa using hb'
      have hlt := hround.need_lt hb'
      obtain ⟨out', q'', hl, hrounds, hq''⟩ := ih hq' hb' (by omega) (w ++ out)
      refine ⟨out ++ out', q'', ?_, .next hround hb' hq' hrounds, hq''⟩
      simp only [hempty, Bool.false_eq_true, if_false]
      rw [hl, List.append_assoc]

/-! ## What is still to be written -/

/-- Where the match of two braces is given up, no occurrence begins at the second of them. -/
def Uncut (values : List (Bytes × Bytes)) (q s : Bytes) : Prop :=
  q = [openBrace, openBrace] → pick values (openBrace :: s) = none

/-- A key that is not complete in a text and that the text is not the beginning of does not begin
what follows the text either. -/
theorem pick_append_none (h : pick values s = none) (hopen : ¬ Open values s) :
    pick values (s ++ t) = none := by
  refine pick_eq_none.mpr fun e he hp => ?_
  rcases Nat.le_total e.1.length s.length with hle | hle
  · exact pick_eq_none.mp h e he
      (List.prefix_of_prefix_length_le hp (List.prefix_append s t) hle)
  · exact hopen ⟨e, he, List.prefix_of_prefix_length_le (List.prefix_append s t) hp hle⟩

/-- A round writes what the text that it takes is replaced by. -/
theorem Round.replaceAll_eq {buf' q' : Bytes} (hv : Braced values) (hq : Valid values q)
    (h : Round values q buf out buf' q') (hsome : values = [] → findBraces buf = none)
    (hcut : Uncut values q (buf ++ t)) :
    replaceAll values (q ++ (buf ++ t)) = out ++ replaceAll values (q' ++ (buf' ++ t)) := by
  cases h with
  | plain hf => exact (clear_of_findBraces_none hv hf t).replaceAll_append
  | @brace p r hf =>
    have hne : values ≠ [] := by
      intro hnil
      rw [hsome hnil] at hf
      cases hf
    obtain ⟨p', r', heq, hlen, -, hclear⟩ := findBraces_some hf
    obtain ⟨rfl, hr⟩ := List.append_inj heq hlen
    obtain ⟨-, rfl⟩ := List.cons.inj hr
    rw [if_neg hne, List.nil_append, List.append_assoc]
    exact (hclear hv t).replaceAll_append
  | @full q buf k v buf' hq hp heq hlt =>
    have hk : k ≠ [] := List.length_pos_iff.mp (Nat.zero_lt_of_lt hlt)
    have hpick := pick_append (t := t) hv hp
    rw [heq, List.append_assoc] at hpick
    rw [← List.append_assoc, heq, List.append_assoc, replaceAll_key hpick hk, List.nil_append]
  | more => simp
  | fail hne hp hopen =>
    have hno := pick_append_none (t := t) hp hopen
    rw [List.append_assoc] at hno
    exact (hq.clear hv hno hcut).replaceAll_append

theorem Round.ne_two {buf' q' : Bytes} (h : Round values q buf out buf' q') (hb : buf' ≠ []) :
    q' ≠ [openBrace, openBrace] := by
  cases h with
  | plain => exact absurd rfl hb
  | brace => split <;> simp
  | full => simp
  | more => exact absurd rfl hb
  | fail => simp

/-- Without keys a round takes the whole buffer, unless it finds a brace. -/
theorem Round.values_ne_nil {buf' q' : Bytes} (hq : Valid values q)
    (h : Round values q buf out buf' q') (hb : buf' ≠ [])
    (hsome : values = [] → findBraces buf = none) : values ≠ [] := by
  rintro rfl
  rcases hq with rfl | ⟨-, ⟨e, he, -⟩, -⟩
  · generalize hq : ([] : Bytes) = q at h
    cases h with
    | plain => exact hb rfl
    | brace hf =>
      rw [hsome rfl] at hf
      cases hf
    | full hne => exact hne hq.symm
    | more => exact hb rfl
    | fail hne => exact hne hq.symm
  · cases he

theorem Rounds.replaceAll_eq {q' : Bytes} (hv : Braced values) (hq : Valid values q)
    (h : Rounds values q buf out q') (hsome : values = [] → findBraces buf = none)
    (hcut : Uncut values q (buf ++ t)) :
    replaceAll values (q ++ (buf ++ t)) = out ++ replaceAll values (q' ++ t) := by
  induction h with
  | last hround => exact hround.replaceAll_eq hv hq hsome hcut
  | next hround hb hq₁ hrounds ih =>
    have hne := hround.values_ne_nil hq hb hsome
    rw [hround.replaceAll_eq hv hq hsome hcut,
      ih hq₁ (fun hnil => absurd hnil hne) fun htwo => absurd htwo (hround.ne_two hb),
      List.append_assoc]

/-- At a cut occurrence the round writes its first brace and goes on behind it, and the occurrence
stays as it is. -/
theorem Round.cut {buf' q' : Bytes} (hv : Braced values) (hb : buf ≠ [])
    (h : Round values [openBrace, openBrace] buf out buf' q')
    (hp : pick values (openBrace :: (buf ++ t)) = some e) :
    ∃ rest, replaceAll values ([openBrace, openBrace] ++ (buf ++ t)) = openBrace :: (e.2 ++ rest) ∧
      out ++ replaceAll values (q' ++ (buf' ++ t)) =
        openBrace :: openBrace :: (e.1.tail ++ rest) := by
  obtain ⟨c, s', hc, hs⟩ := pick_begins hv hp
  obtain ⟨-, hs⟩ := List.cons.inj hs
  -- the buffer goes on with a brace, which no key has behind its first two
  have hhead : ∃ b, buf = openBrace :: b := by
    cases buf with
    | nil => exact absurd rfl hb
    | cons x b =>
      obtain ⟨rfl, -⟩ := List.cons.inj hs
      exact ⟨b, rfl⟩
  obtain ⟨b, rfl⟩ := hhead
  have hopen : ¬ Open values ([openBrace, openBrace] ++ openBrace :: b) := by
    intro hopen
    rcases open_cases hv hopen (by simp) with h | h | ⟨x, y, h, hx⟩
    · simp at h
    · simp at h
    · simp only [List.cons_append, List.nil_append, List.cons.injEq, true_and] at h
      exact hx (by simp [← h.1])
  have hnone : ∀ t, pick values ([openBrace, openBrace] ++ (openBrace :: b ++ t)) = none := by
    intro t
    cases hp : pick values ([openBrace, openBrace] ++ (openBrace :: b ++ t)) with
    | none => rfl
    | some d =>
      obtain ⟨x, y, hx, hy⟩ := pick_begins hv hp
      simp only [List.cons_append, List.nil_append, List.cons.injEq, true_and] at hy
      exact absurd hy.1.symm hx
  obtain ⟨k, v⟩ := e
  obtain ⟨key, hkey, heq⟩ := hv _ (pick_mem hp)
  obtain ⟨u, hu⟩ := pick_isPrefix hp
  obtain rfl : k = braced key := heq
  have hshift : pick values (openBrace :: (openBrace :: b ++ t)) = some (braced key, v) := hp
  have hrest : openBrace :: b ++ t = (braced key).tail ++ u := by
    have htail := congrArg List.tail hu
    rw [List.tail_append_of_ne_nil (by simp [braced])] at htail
    exact htail.symm
  have hfirst : replaceAll values ([openBrace, openBrace] ++ (openBrace :: b ++ t)) =
      openBrace :: (v ++ replaceAll values u) := by
    have hstep : replaceAll values (openBrace :: (openBrace :: (openBrace :: b ++ t))) =
        openBrace :: replaceAll values (openBrace :: (openBrace :: b ++ t)) :=
      replaceAll_cons (hnone t)
    have hu' : openBrace :: (openBrace :: b ++ t) = braced key ++ u := hu.symm
    rw [hu'] at hshift
    show replaceAll values (openBrace :: (openBrace :: (openBrace :: b ++ t))) = _
    rw [hstep, hu', replaceAll_key hshift (by simp [braced])]
  have hclear : Clear values (braced key).tail u := by
    refine ⟨pick_none hv (.inr ?_), clear_of_notMem hv ?_ u⟩
    · cases key with
      | nil => exact absurd rfl hkey.ne_nil
      | cons x key => exact fun hx => hkey.openBrace (by simp [← Option.some.inj hx])
    · intro hm
      rcases List.mem_append.mp hm with hm | hm
      · exact hkey.openBrace hm
      · exact absurd hm (by decide)
  refine ⟨replaceAll values u, hfirst, ?_⟩
  cases h with
  | full _ hp' =>
    have := hnone []
    rw [List.append_nil, hp'] at this
    cases this
  | more _ _ hopen' => exact absurd hopen' hopen
  | fail =>
    rw [List.nil_append, hrest, hclear.replaceAll_append]
    rfl

/-- Where every value is empty, what is written and what is still to be written is never less than
it was, and more at a cut occurrence. -/
theorem Round.length_le {buf' q' : Bytes} (hv : Braced values) (hq : Valid values q) (hb : buf ≠ [])
    (h : Round values q buf out buf' q') (hne : values ≠ []) (hempty : ∀ e ∈ values, e.2 = [])
    (t : Bytes) :
    (replaceAll values (q ++ (buf ++ t))).length ≤
        (out ++ replaceAll values (q' ++ (buf' ++ t))).length ∧
      (¬ Uncut values q (buf ++ t) → (replaceAll values (q ++ (buf ++ t))).length <
        (out ++ replaceAll values (q' ++ (buf' ++ t))).length) := by
  by_cases hcut : Uncut values q (buf ++ t)
  · rw [h.replaceAll_eq hv hq (fun hnil => absurd hnil hne) hcut]
    exact ⟨Nat.le_refl _, fun h => absurd hcut h⟩
  · obtain ⟨rfl, hsome⟩ := Classical.not_imp.mp hcut
    obtain ⟨e, hp⟩ := Option.ne_none_iff_exists'.mp hsome
    obtain ⟨rest, hS, hout⟩ := h.cut hv hb hp
    have hlt : (replaceAll values ([openBrace, openBrace] ++ (buf ++ t))).length <
        (out ++ replaceAll values (q' ++ (buf' ++ t))).length := by
      rw [hS, hout, hempty e (pick_mem hp)]
      simp only [List.length_cons, List.length_append, List.length_nil]
      omega
    exact ⟨Nat.le_of_lt hlt, fun _ => hlt⟩

theorem Rounds.length_le {q' : Bytes} (hv : Braced values) (hq : Valid values q) (hb : buf ≠ [])
    (h : Rounds values q buf out q') (hne : values ≠ []) (hempty : ∀ e ∈ values, e.2 = [])
    (t : Bytes) :
    (replaceAll values (q ++ (buf ++ t))).length ≤ (out ++ replaceAll values (q' ++ t)).length ∧
      (¬ Uncut values q (buf ++ t) → (replaceAll values (q ++ (buf ++ t))).length <
        (out ++ replaceAll values (q' ++ t)).length) := by
  induction h with
  | last hround => exact hround.length_le hv hq hb hne hempty t
  | next hround hb₁ hq₁ hrounds ih =>
    obtain ⟨hle, hlt⟩ := hround.length_le hv hq hb hne hempty t
    have hrest := (ih hq₁ hb₁).1
    simp only [List.length_append] at hle hlt hrest ⊢
    refine ⟨by omega, fun hcut => ?_⟩
    have := hlt hcut
    omega

/-- Where every value is its key, a round writes what it takes, but for the brace of a table without
keys. -/
theorem Round.length_of_id {buf' q' : Bytes} (hid : ∀ e ∈ values, e.2 = e.1)
    (h : Round values q buf out buf' q') :
    out.length + q'.length + buf'.length ≤ q.length + buf.length ∧
      (values = [] → findBraces buf ≠ none → q = [] →
        out.length + q'.length + buf'.length < q.length + buf.length) := by
  cases h with
  | plain hf => exact ⟨by simp, fun _ h => absurd hf h⟩
  | brace =>
    simp only [List.length_append, List.length_cons, List.length_nil]
    refine ⟨?_, fun hnil _ _ => ?_⟩
    · split <;> simp only [List.length_cons, List.length_nil] <;> omega
    · simp only [hnil, if_true, List.length_nil]
      omega
  | @full _ _ k _ _ hq hp heq =>
    have hlen := congrArg List.length heq
    have hv : out.length = k.length := congrArg List.length (hid _ (pick_mem hp))
    rw [List.length_append, List.length_append] at hlen
    simp only [List.length_nil]
    exact ⟨by omega, fun _ _ h => absurd h hq⟩
  | more hq =>
    simp only [List.length_append, List.length_nil]
    exact ⟨by omega, fun _ _ h => absurd h hq⟩
  | fail hq =>
    simp only [List.length_nil]
    exact ⟨by omega, fun _ _ h => absurd h hq⟩

theorem Rounds.length_of_id {q' : Bytes} (hid : ∀ e ∈ values, e.2 = e.1)
    (h : Rounds values q buf out q') :
    out.length + q'.length ≤ q.length + buf.length ∧
      (values = [] → findBraces buf ≠ none → q = [] →
        out.length + q'.length < q.length + buf.length) := by
  induction h with
  | last hround => exact hround.length_of_id hid
  | next hround _ _ _ ih =>
    obtain ⟨hle, hlt⟩ := hround.length_of_id hid
    rw [List.length_append]
    refine ⟨by omega, fun hnil hf hq => ?_⟩
    have := hlt hnil hf hq
    omega

/-! ## How many braces are parked -/

/-- How many open braces a text ends with, two at most, when there are `n` in front of it. -/
def countBraces : Nat → Bytes → Nat
  | n, [] => n
  | n, c :: s => countBraces (if c = openBrace then min 2 (n + 1) else 0) s

/-- How many open braces are parked behind a buffer when there were `n`: a single brace behind two
of them ends their match, and is the first of the next one. -/
def openBraces (n : Nat) (buf : Bytes) : Nat :=
  if n = 2 ∧ buf = [openBrace] then 1 else countBraces n buf

/-- How many braces the parked text is, where it is braces only. -/
def parkedBraces (q : Bytes) : Nat :=
  if q = [openBrace] then 1 else if q = [openBrace, openBrace] then 2 else 0

theorem countBraces_append (n : Nat) (s t : Bytes) :
    countBraces n (s ++ t) = countBraces (countBraces n s) t := by
  induction s generalizing n with
  | nil => rfl
  | cons c s ih => exact ih _

theorem countBraces_last {c : UInt8} (hc : c ≠ openBrace) (n : Nat) (s : Bytes) :
    countBraces n (s ++ [c]) = 0 := by
  rw [countBraces_append, countBraces, if_neg hc, countBraces]

/-- Only a single brace depends on what is in front of it. -/
theorem countBraces_eq (hb : buf ≠ []) (hone : buf ≠ [openBrace]) (n m : Nat) :
    countBraces n buf = countBraces m buf := by
  match buf, hb, hone with
  | [c], _, hone =>
    have hc : c ≠ openBrace := fun h => hone (by rw [h])
    simp [countBraces, hc]
  | c :: d :: s, _, _ =>
    simp only [countBraces]
    congr 1
    split
    · split <;> omega
    · rfl

theorem countBraces_findBraces (hb : buf ≠ []) (h : findBraces buf = none) (n : Nat) :
    countBraces n buf = 0 := by
  fun_induction findBraces buf generalizing n with
  | case1 => exact absurd rfl hb
  | case2 => cases h
  | case3 c hc => exact countBraces_last hc n []
  | case4 => cases h
  | case5 c d s hcd ih => exact ih (by simp) (by simpa using h) _

theorem countBraces_before {p r : Bytes}
    (h : findBraces (p ++ openBrace :: r) = some p.length) (hp : p ≠ []) (n : Nat) :
    countBraces n p = 0 := by
  induction p generalizing n with
  | nil => exact absurd rfl hp
  | cons c p ih =>
    cases p with
    | nil =>
      have hc : c ≠ openBrace := by
        rintro rfl
        simp [findBraces] at h
      exact countBraces_last hc n []
    | cons d p =>
      rw [List.cons_append, List.cons_append, findBraces] at h
      split at h
      · simp at h
      · obtain ⟨i, hi, heq⟩ := Option.map_eq_some_iff.mp h
        refine ih ?_ (by simp) _
        rw [List.cons_append, hi]
        simpa using heq

@[simp] theorem openBraces_nil (n : Nat) : openBraces n [] = n := by
  simp [openBraces, countBraces]

theorem openBraces_eq {n : Nat} (h : n = 2 → buf ≠ [openBrace]) :
    openBraces n buf = countBraces n buf :=
  if_neg fun h' => h h'.1 h'.2

theorem openBraces_last {c : UInt8} (hc : c ≠ openBrace) (n : Nat) (s t : Bytes) :
    openBraces n (s ++ [c] ++ t) = countBraces 0 t := by
  have hone : s ++ [c] ++ t ≠ [openBrace] := by
    intro h
    have hmem : c ∈ s ++ [c] ++ t := by simp
    rw [h] at hmem
    exact hc (by simpa using hmem)
  rw [openBraces_eq fun _ => hone, countBraces_append, countBraces_last hc]

/-- A round keeps how many braces will be parked behind the buffer. -/
theorem Round.openBraces_eq {buf' q' : Bytes} (hv : Braced values) (hne : values ≠ [])
    (hq : Valid values q) (hb : buf ≠ []) (h : Round values q buf out buf' q') :
    openBraces (parkedBraces q) buf = openBraces (parkedBraces q') buf' := by
  cases h with
  | plain hf => exact countBraces_findBraces hb hf 0
  | brace hf =>
    have hp : countBraces 0 out = 0 := by
      by_cases hp : out = []
      · rw [hp]
        rfl
      · exact countBraces_before hf hp 0
    rw [if_neg hne, Http.openBraces_eq (by simp [parkedBraces]),
      Http.openBraces_eq (by simp [parkedBraces]), countBraces_append]
    show countBraces _ (openBrace :: buf') = countBraces 1 buf'
    rw [show parkedBraces [] = 0 from rfl, hp, countBraces, if_pos rfl]
    rfl
  | @full _ _ k _ _ hq' hp heq hlt =>
    -- the key ends with a brace that closes it
    obtain ⟨key, -, hk⟩ := hv _ (pick_mem hp)
    obtain rfl : k = braced key := hk
    obtain ⟨r, hr⟩ := (hq.isPrefix (pick_mem hp) (pick_isPrefix hp)).1
    replace hr : q ++ r = braced key := hr
    rcases List.eq_nil_or_concat' r with rfl | ⟨r', c, rfl⟩
    · rw [List.append_nil] at hr
      rw [hr] at hlt
      exact absurd hlt (Nat.lt_irrefl _)
    · obtain rfl : buf = r' ++ [c] ++ buf' := by
        refine (List.append_right_inj q).mp ?_
        rw [heq, ← hr]
        simp
      have hc : c = closeBrace := by
        have hend : q ++ r' ++ [c] =
            [openBrace, openBrace] ++ key ++ [closeBrace] ++ [closeBrace] := by
          simpa [braced] using hr
        simpa using (List.append_inj' hend rfl).2
      rw [openBraces_last (by rw [hc]; decide), Http.openBraces_eq (by simp [parkedBraces])]
      rfl
  | more hq' hp hopen =>
    rw [openBraces_nil]
    rcases List.eq_nil_or_concat' buf with rfl | ⟨b, c, rfl⟩
    · exact absurd rfl hb
    · by_cases hc : c = openBrace
      · -- only the second brace of a key can follow
        subst hc
        rcases open_cases hv hopen (by simp) with h | h | ⟨x, s, h, hx⟩
        · have hlen := congrArg List.length h
          have := List.length_pos_iff.mpr hq'
          simp only [List.length_append, List.length_singleton] at hlen
          omega
        · have hqb : q ++ b = [openBrace] := by
            have hend : q ++ b ++ [openBrace] = [openBrace] ++ [openBrace] := by simpa using h
            exact (List.append_inj' hend rfl).1
          have hlen := congrArg List.length hqb
          have := List.length_pos_iff.mpr hq'
          simp only [List.length_append, List.length_singleton] at hlen
          obtain rfl : b = [] := List.length_eq_zero_iff.mp (by omega)
          rw [List.append_nil] at hqb
          subst hqb
          rfl
        · exfalso
          rcases List.eq_nil_or_concat' s with rfl | ⟨s, y, rfl⟩
          · have hend : q ++ b ++ [openBrace] = [openBrace, openBrace] ++ [x] := by simpa using h
            exact hx (by simpa using (List.append_inj' hend rfl).2)
          · have hend : q ++ b ++ [openBrace] = openBrace :: openBrace :: x :: s ++ [y] := by
              simpa using h
            have hy : [openBrace] = [y] := (List.append_inj' hend rfl).2
            exact hx (by simp [← List.singleton_inj.mp hy])
      · have hbuf := openBraces_last hc (parkedBraces q) b []
        rw [List.append_nil] at hbuf
        rw [hbuf, parkedBraces, if_neg, if_neg]
        · rfl
        · intro h
          have hmem : c ∈ q ++ (b ++ [c]) := by simp
          rw [h] at hmem
          exact hc (by simpa using hmem)
        · intro h
          have hmem : c ∈ q ++ (b ++ [c]) := by simp
          rw [h] at hmem
          exact hc (by simpa using hmem)
  | fail hq' hp hopen =>
    by_cases hone : buf = [openBrace]
    · subst hone
      have hq1 : q ≠ [openBrace] := by
        rintro rfl
        obtain ⟨e, he⟩ := List.exists_mem_of_ne_nil _ hne
        obtain ⟨key, -, heq⟩ := hv e he
        refine hopen ⟨e, he, ?_⟩
        rw [heq, braced_eq]
        exact ⟨_, rfl⟩
      rw [parkedBraces, if_neg hq1]
      split <;> rfl
    · rw [Http.openBraces_eq fun _ => hone, Http.openBraces_eq fun _ => hone]
      exact countBraces_eq hb hone _ _

/-- How many braces are parked after a buffer follows from how many there were, and from the
buffer. -/
theorem Rounds.parkedBraces_eq {q' : Bytes} (hv : Braced values) (hne : values ≠ [])
    (hq : Valid values q) (hb : buf ≠ []) (h : Rounds values q buf out q') :
    parkedBraces q' = openBraces (parkedBraces q) buf := by
  induction h with
  | last hround =>
    rw [hround.openBraces_eq hv hne hq hb, openBraces_nil]
  | next hround hb₁ hq₁ _ ih =>
    rw [hround.openBraces_eq hv hne hq hb, ih hq₁ hb₁]

/-! ## All the puts -/

/-- The keys and values in the form `buffer_replace` keeps them. -/
def table (keyValue : List (Bytes × Bytes)) : List (Bytes × Bytes) :=
  keyValue.map fun kv => (braced kv.1, kv.2)

/-- What is written from the parked text `q` on until the sink is closed. -/
inductive Written (values : List (Bytes × Bytes)) : Bytes → List Put → Bytes → Prop
  | close (q : Bytes) : Written values q [] q
  | packet {q : Bytes} {data : Bytes} {puts : List Put} {out : Bytes} : Written values q puts out →
      Written values q (.packet data :: puts) out
  | empty {q : Bytes} {puts : List Put} {out : Bytes} : Written values q puts out →
      Written values q (.buffer [] :: puts) out
  | buffer {q buf out q' : Bytes} {puts : List Put} {out' : Bytes} : buf ≠ [] →
      Rounds values q buf out q' → Valid values q' → Written values q' puts out' →
      Written values q (.buffer buf :: puts) (out ++ out')

theorem getRemaining_current (hq : Valid values q) :
    (BufferReplace.mk values (current values q)).getRemaining = q := by
  rcases hq with rfl | ⟨hne, hopen, -⟩
  · rfl
  · have hcur : current values q = entries q values.zipIdx := if_neg hne
    have hentries : entries q values.zipIdx ≠ [] := hcur ▸ (current_ne_nil hne).mpr hopen
    rw [hcur]
    have hkeys : ∀ kv ∈ values.zipIdx, values.getD kv.2 ([], []) = kv.1 :=
      fun _ => getD_of_mem_zipIdx
    generalize values.zipIdx = kvs at hkeys hentries
    induction kvs with
    | nil => exact absurd rfl hentries
    | cons kv kvs ih =>
      by_cases hk : q <+: kv.1.1
      · rw [entries, if_pos hk]
        show ((values.getD kv.2 ([], [])).1).take
          (((values.getD kv.2 ([], [])).1).length - (kv.1.1.drop q.length).length) = q
        rw [hkeys kv (.head _)]
        obtain ⟨r, hr⟩ := hk
        rw [← hr]
        simp
      · rw [entries, if_neg hk] at hentries ⊢
        exact ih (fun kv hkv => hkeys kv (.tail _ hkv)) hentries

theorem close_current (hq : Valid values q) (w : Bytes) :
    (ContentReplaceDataSink.mk ⟨values, current values q⟩ w).close = w ++ q := by
  rw [ContentReplaceDataSink.close]
  split
  · rw [getRemaining_current hq]
  · rename_i h
    by_cases hne : q = []
    · rw [hne, List.append_nil]
    · rcases hq with rfl | ⟨-, hopen, -⟩
      · exact absurd rfl hne
      · have := (current_ne_nil hne).mpr hopen
        simp [BufferReplace.isConsuming, this] at h

theorem foldlM_written (hv : Braced values) (hq : Valid values q) (puts : List Put) (w : Bytes) :
    ∃ out, (puts.foldlM ContentReplaceDataSink.put ⟨⟨values, current values q⟩, w⟩).map
        ContentReplaceDataSink.close = some (w ++ out) ∧
      Written values q puts out := by
  induction puts generalizing q w with
  | nil => exact ⟨q, congrArg some (close_current hq w), .close q⟩
  | cons p puts ih =>
    rw [List.foldlM_cons]
    cases p with
    | packet data =>
      obtain ⟨out, hout, hwritten⟩ := ih hq w
      exact ⟨out, hout, .packet hwritten⟩
    | buffer buf =>
      by_cases hb : buf = []
      · subst hb
        obtain ⟨out, hout, hwritten⟩ := ih hq w
        exact ⟨out, hout, .empty hwritten⟩
      · obtain ⟨out, q', hloop, hrounds, hq'⟩ :=
          putLoop_rounds hv hq hb (Nat.sub_le _ _) w
        obtain ⟨out', hout', hwritten⟩ := ih hq' (w ++ out)
        refine ⟨out ++ out', ?_, .buffer hb hrounds hq' hwritten⟩
        have hempty : buf.isEmpty = false := by simpa using hb
        have hput : ContentReplaceDataSink.put ⟨⟨values, current values q⟩, w⟩ (.buffer buf) =
            some ⟨⟨values, current values q'⟩, w ++ out⟩ := by
          simp only [ContentReplaceDataSink.put, hempty, Bool.false_eq_true, if_false]
          exact hloop
        rw [hput, ← List.append_assoc]
        exact hout'

theorem init_br (keyValue : List (Bytes × Bytes)) :
    ContentReplaceDataSink.init keyValue = ⟨⟨table keyValue, []⟩, []⟩ := by
  have hfold : ∀ (kvs : List (Bytes × Bytes)) (values : List (Bytes × Bytes)),
      kvs.foldl (fun br kv => br.add kv.1 kv.2) (BufferReplace.mk values []) =
        ⟨values ++ table kvs, []⟩ := by
    intro kvs
    induction kvs with
    | nil => simp [table]
    | cons kv kvs ih =>
      intro values
      rw [List.foldl_cons, BufferReplace.add, ih]
      simp [table]
  rw [ContentReplaceDataSink.init, hfold]
  rfl

theorem transformed_written {keyValue : List (Bytes × Bytes)} (hv : Braced (table keyValue))
    (puts : List Put) :
    ∃ out, transformed keyValue puts = some out ∧ Written (table keyValue) [] puts out := by
  obtain ⟨out, hout, hwritten⟩ := foldlM_written hv (.inl rfl) puts []
  refine ⟨out, ?_, hwritten⟩
  rw [transformed, init_br]
  exact hout

/-- The content of the puts. -/
def content (puts : List Put) : Bytes := puts.flatMap Put.bytes

/-- At no end of a buffer are two braces parked, of which the second and what follows would be an
occurrence. -/
def Uncuts (keys : List Bytes) : Nat → List Put → Prop
  | _, [] => True
  | n, p :: puts =>
    (n = 2 → ∀ key ∈ keys, ¬ braced key <+: openBrace :: content (p :: puts)) ∧
      Uncuts keys (openBraces n p.bytes) puts

/-- What the writer has to keep to: no data in packets, with no keys no braces, and no occurrence
cut behind two parked braces. -/
structure Kept (keys : List Bytes) (puts : List Put) : Prop where
  packets : ∀ data, .packet data ∈ puts → data = []
  braces : keys = [] → ∀ buf, .buffer buf ∈ puts → findBraces buf = none
  uncut : Uncuts keys 0 puts

variable {keyValue : List (Bytes × Bytes)} {puts : List Put}

theorem content_cons (p : Put) (puts : List Put) : content (p :: puts) = p.bytes ++ content puts :=
  List.flatMap_cons

theorem pick_table {keys : List Bytes} (hkeys : keyValue.map Prod.fst = keys) :
    pick (table keyValue) s = none ↔ ∀ key ∈ keys, ¬ braced key <+: s := by
  rw [pick_eq_none, ← hkeys]
  constructor
  · rintro h key hkey
    obtain ⟨kv, hkv, rfl⟩ := List.mem_map.mp hkey
    exact h (braced kv.1, kv.2) (List.mem_map_of_mem hkv)
  · rintro h e he
    obtain ⟨kv, hkv, rfl⟩ := List.mem_map.mp he
    exact h kv.1 (List.mem_map_of_mem hkv)

theorem table_eq_nil {keys : List Bytes} (hkeys : keyValue.map Prod.fst = keys) :
    table keyValue = [] ↔ keys = [] := by
  rw [← hkeys]
  simp [table]

theorem parkedBraces_eq_two : parkedBraces q = 2 ↔ q = [openBrace, openBrace] := by
  rw [parkedBraces]
  split
  · rename_i h
    simp [h]
  · split
    · rename_i h
      simp [h]
    · rename_i h
      simp [h]

theorem uncuts_cons {keys : List Bytes} (hkeys : keyValue.map Prod.fst = keys) (p : Put) :
    Uncuts keys (parkedBraces q) (p :: puts) ↔
      Uncut (table keyValue) q (p.bytes ++ content puts) ∧
        Uncuts keys (openBraces (parkedBraces q) p.bytes) puts := by
  rw [Uncuts, Uncut, parkedBraces_eq_two, pick_table hkeys, content_cons]

/-- A put without bytes cuts nothing. -/
theorem uncuts_skip {keys : List Bytes} {n : Nat} {p : Put} (hp : p.bytes = []) :
    Uncuts keys n (p :: puts) ↔ Uncuts keys n puts := by
  rw [Uncuts, content_cons, hp, openBraces_nil, List.nil_append]
  refine ⟨fun h => h.2, fun h => ⟨?_, h⟩⟩
  cases puts with
  | nil =>
    intro _ key _ hprefix
    have := hprefix.length_le
    simp [content, braced] at this
  | cons p puts => exact h.1

/-- Where no occurrence is cut, everything that is written is the content with its occurrences
replaced. -/
theorem Written.eq_replaceAll {keys : List Bytes} (hv : Braced (table keyValue))
    (hkeys : keyValue.map Prod.fst = keys) (hq : Valid (table keyValue) q)
    (h : Written (table keyValue) q puts out) (hpackets : ∀ data, .packet data ∈ puts → data = [])
    (hbraces : keys = [] → ∀ buf, .buffer buf ∈ puts → findBraces buf = none)
    (huncut : keys ≠ [] → Uncuts keys (parkedBraces q) puts) :
    out = replaceAll (table keyValue) (q ++ content puts) := by
  induction h with
  | close q => exact ((congrArg _ (List.append_nil q)).trans (hq.replaceAll_eq hv)).symm
  | @packet q data puts out _ ih =>
    obtain rfl := hpackets data (.head _)
    exact ih hq (fun data hm => hpackets data (.tail _ hm))
      (fun hnil buf hm => hbraces hnil buf (.tail _ hm))
      fun hne => (uncuts_skip rfl).mp (huncut hne)
  | empty _ ih =>
    exact ih hq (fun data hm => hpackets data (.tail _ hm))
      (fun hnil buf hm => hbraces hnil buf (.tail _ hm))
      fun hne => (uncuts_skip rfl).mp (huncut hne)
  | @buffer q buf out q' puts out' hb hrounds hq' _ ih =>
    have hcut : keys ≠ [] → Uncut (table keyValue) q (buf ++ content puts) ∧
        Uncuts keys (parkedBraces q') puts := by
      intro hne
      rw [hrounds.parkedBraces_eq hv (mt (table_eq_nil hkeys).mp hne) hq hb]
      exact (uncuts_cons hkeys (.buffer buf)).mp (huncut hne)
    rw [ih hq' (fun data hm => hpackets data (.tail _ hm))
      (fun hnil buf hm => hbraces hnil buf (.tail _ hm)) fun hne => (hcut hne).2, content_cons]
    refine (hrounds.replaceAll_eq hv hq
      (fun hnil => hbraces ((table_eq_nil hkeys).mp hnil) buf (.head _)) ?_).symm
    by_cases hne : keys = []
    · exact fun _ => (pick_table hkeys).mpr (by simp [hne])
    · exact (hcut hne).1

/-- With empty values, cut occurrences make what is written longer. -/
theorem Written.length_le {keys : List Bytes} (hv : Braced (table keyValue))
    (hkeys : keyValue.map Prod.fst = keys) (hq : Valid (table keyValue) q)
    (h : Written (table keyValue) q puts out) (hpackets : ∀ data, .packet data ∈ puts → data = [])
    (hne : keys ≠ []) (hempty : ∀ e ∈ table keyValue, e.2 = []) :
    (replaceAll (table keyValue) (q ++ content puts)).length ≤ out.length ∧
      (¬ Uncuts keys (parkedBraces q) puts →
        (replaceAll (table keyValue) (q ++ content puts)).length < out.length) := by
  have hnil := mt (table_eq_nil hkeys).mp hne
  induction h with
  | close q =>
    refine ⟨?_, fun h => absurd trivial h⟩
    rw [show content [] = [] from rfl, List.append_nil, hq.replaceAll_eq hv]
  | @packet q data puts out _ ih =>
    obtain rfl := hpackets data (.head _)
    rw [uncuts_skip rfl]
    exact ih hq fun data hm => hpackets data (.tail _ hm)
  | empty _ ih =>
    rw [uncuts_skip rfl]
    exact ih hq fun data hm => hpackets data (.tail _ hm)
  | @buffer q buf out q' puts out' hb hrounds hq' _ ih =>
    obtain ⟨hle, hlt⟩ := ih hq' fun data hm => hpackets data (.tail _ hm)
    obtain ⟨hle₁, hlt₁⟩ := hrounds.length_le hv hq hb hnil hempty (content puts)
    rw [uncuts_cons hkeys, content_cons, Put.bytes, ← hrounds.parkedBraces_eq hv hnil hq hb]
    rw [List.length_append] at hle₁ hlt₁ ⊢
    refine ⟨by omega, fun hcut => ?_⟩
    by_cases hcut₁ : Uncut (table keyValue) q (buf ++ content puts)
    · have := hlt fun h => hcut ⟨hcut₁, h⟩
      omega
    · have := hlt₁ hcut₁
      omega

/-- The bytes of the puts that come in buffers. -/
def buffered : List Put → Nat
  | [] => 0
  | .buffer buf :: puts => buf.length + buffered puts
  | .packet _ :: puts => buffered puts

theorem buffered_le (puts : List Put) : buffered puts ≤ (content puts).length := by
  induction puts with
  | nil => exact Nat.zero_le _
  | cons p puts ih =>
    rw [content_cons, List.length_append]
    cases p with
    | packet data => exact Nat.le_trans ih (Nat.le_add_left _ _)
    | buffer buf => exact Nat.add_le_add_left ih _

theorem buffered_lt {data : Bytes} (h : .packet data ∈ puts) (hd : data ≠ []) :
    buffered puts < (content puts).length := by
  induction puts with
  | nil => cases h
  | cons p puts ih =>
    rw [content_cons, List.length_append]
    rcases List.mem_cons.mp h with rfl | h
    · have := List.length_pos_iff.mpr hd
      have := buffered_le puts
      simp only [buffered, Put.bytes]
      omega
    · have := ih h
      cases p with
      | packet data => exact Nat.lt_of_lt_of_le this (Nat.le_add_left _ _)
      | buffer buf => exact Nat.add_lt_add_left this _

/-- Where every value is its key, no more is written than came in buffers, and less with a brace
that is found without keys. -/
theorem Written.length_of_id (hid : ∀ e ∈ values, e.2 = e.1) (h : Written values q puts out) :
    out.length ≤ q.length + buffered puts ∧
      (values = [] → q = [] → ∀ buf, .buffer buf ∈ puts → findBraces buf ≠ none →
        out.length < q.length + buffered puts) := by
  induction h with
  | close q => exact ⟨Nat.le_refl _, fun _ _ _ hm => nomatch hm⟩
  | packet _ ih =>
    refine ⟨ih.1, fun hnil hq buf hm hf => ih.2 hnil hq buf ?_ hf⟩
    simpa using hm
  | empty _ ih =>
    simp only [buffered, List.length_nil, Nat.zero_add]
    refine ⟨ih.1, fun hnil hq buf hm hf => ?_⟩
    rcases List.mem_cons.mp hm with hm | hm
    · obtain rfl := Put.buffer.inj hm
      exact absurd rfl hf
    · exact ih.2 hnil hq buf hm hf
  | @buffer q buf out q' puts out' hb hrounds hq' _ ih =>
    obtain ⟨hle, hlt⟩ := hrounds.length_of_id hid
    simp only [buffered, List.length_append]
    refine ⟨by omega, fun hnil hq b hm hf => ?_⟩
    rcases List.mem_cons.mp hm with hm | hm
    · obtain rfl := Put.buffer.inj hm
      have := hlt hnil hf hq
      omega
    · have hq'' : q' = [] := by
        rcases hq' with hq' | ⟨-, ⟨e, he, -⟩, -⟩
        · exact hq'
        · rw [hnil] at he
          cases he
      have := ih.2 hnil hq'' b hm hf
      omega

theorem braced_table {keys : List Bytes} (hplain : ∀ key ∈ keys, Plain key)
    (hkeys : keyValue.map Prod.fst = keys) : Braced (table keyValue) := by
  intro e he
  obtain ⟨kv, hkv, rfl⟩ := List.mem_map.mp he
  exact ⟨kv.1, hplain _ (hkeys ▸ List.mem_map_of_mem hkv), rfl⟩

theorem replaceAll_table_id (hid : ∀ e ∈ table keyValue, e.2 = e.1) (s : Bytes) :
    replaceAll (table keyValue) s = s := by
  refine replaceAll_id (fun e he => ?_) hid s
  obtain ⟨kv, -, rfl⟩ := List.mem_map.mp he
  simp [braced]

/-- For plain keys, whatever their values are, the content is written with its occurrences replaced
if and only if no data comes in packets, no brace is found without keys, and no occurrence is cut
behind two parked braces. -/
theorem transformed_eq_replaceAll (keys : List Bytes) (hplain : ∀ key ∈ keys, Plain key)
    (puts : List Put) :
    (∀ keyValue, keyValue.map Prod.fst = keys →
      transformed keyValue puts = some (replaceAll (table keyValue) (content puts))) ↔
    Kept keys puts := by
  constructor
  · intro h
    -- with their keys for values, all the occurrences are to stay
    have hliteral : (keys.map fun key => (key, braced key)).map Prod.fst = keys := by
      simp [Function.comp_def]
    have hid : ∀ e ∈ table (keys.map fun key => (key, braced key)), e.2 = e.1 := by
      intro e he
      obtain ⟨kv, hkv, rfl⟩ := List.mem_map.mp he
      obtain ⟨key, -, rfl⟩ := List.mem_map.mp hkv
      rfl
    obtain ⟨out, hout, hwritten⟩ := transformed_written (braced_table hplain hliteral) puts
    rw [h _ hliteral, replaceAll_table_id hid] at hout
    obtain rfl := Option.some.inj hout
    obtain ⟨hle, hlt⟩ := hwritten.length_of_id hid
    rw [List.length_nil, Nat.zero_add] at hle hlt
    have hpackets : ∀ data, .packet data ∈ puts → data = [] := by
      intro data hm
      by_contra hd
      exact absurd (buffered_lt hm hd) (Nat.not_lt_of_le hle)
    have hbraces : keys = [] → ∀ buf, .buffer buf ∈ puts → findBraces buf = none := by
      intro hnil buf hm
      by_contra hf
      have := hlt ((table_eq_nil hliteral).mpr hnil) rfl buf hm hf
      exact absurd this (Nat.not_lt_of_le (buffered_le puts))
    refine ⟨hpackets, hbraces, ?_⟩
    by_cases hne : keys = []
    · subst hne
      clear h hplain hliteral hid hwritten hle hlt hout hpackets hbraces
      generalize 0 = n
      induction puts generalizing n with
      | nil => trivial
      | cons p puts ih => exact ⟨fun _ key hm => (nomatch hm), ih _⟩
    · -- with empty values, a cut occurrence makes the difference
      have hblank : (keys.map fun key => (key, ([] : Bytes))).map Prod.fst = keys := by
        simp [Function.comp_def]
      have hempty : ∀ e ∈ table (keys.map fun key => (key, ([] : Bytes))), e.2 = [] := by
        intro e he
        obtain ⟨kv, hkv, rfl⟩ := List.mem_map.mp he
        obtain ⟨key, -, rfl⟩ := List.mem_map.mp hkv
        rfl
      obtain ⟨out, hout, hwritten⟩ := transformed_written (braced_table hplain hblank) puts
      rw [h _ hblank] at hout
      obtain rfl := Option.some.inj hout
      by_contra hcut
      exact absurd ((hwritten.length_le (braced_table hplain hblank) hblank (.inl rfl) hpackets hne
        hempty).2 hcut) (Nat.lt_irrefl _)
  · rintro ⟨hpackets, hbraces, huncut⟩ keyValue hkeys
    obtain ⟨out, hout, hwritten⟩ := transformed_written (braced_table hplain hkeys) puts
    rw [hout, hwritten.eq_replaceAll (braced_table hplain hkeys) hkeys (.inl rfl) hpackets hbraces
      fun _ => huncut]
    rfl

/-- The keys of the content replacement, and an occurrence cut inside of its key. -/
theorem transformed_cut_inside :
    transformed (contentReplaceKeys (text "http") (text "localhost"))
        [.buffer (text "xyz-\x7b\x7bHo"), .buffer (text "st\x7d\x7d\x7b\x7bPr")] =
      some (text "xyz-localhost\x7b\x7bPr") := by
  have hplain : ∀ key ∈ [text "Protocol", text "Host"], Plain key := by
    intro key hkey
    simp only [List.mem_cons, List.not_mem_nil, or_false] at hkey
    rcases hkey with rfl | rfl <;> exact ⟨by decide, by decide, by decide, by decide⟩
  have hkept : Kept [text "Protocol", text "Host"]
      [.buffer (text "xyz-\x7b\x7bHo"), .buffer (text "st\x7d\x7d\x7b\x7bPr")] := by
    refine ⟨by simp, by simp, ?_⟩
    simp only [Uncuts]
    decide
  rw [(transformed_eq_replaceAll _ hplain _).mpr hkept _ rfl]
  decide +kernel

/-- Cut behind its second brace, after a third one, the occurrence is not replaced. -/
theorem not_transformed_cut :
    ¬ transformed (contentReplaceKeys (text "http") (text "localhost"))
        [.buffer (text "\x7b\x7b"), .buffer (text "\x7bHost\x7d\x7d")] =
      some (replaceAll (table (contentReplaceKeys (text "http") (text "localhost")))
        (content [.buffer (text "\x7b\x7b"), .buffer (text "\x7bHost\x7d\x7d")])) := by
  decide +kernel

end Seastar.Http
