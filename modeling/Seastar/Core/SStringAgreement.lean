import Seastar.Core.SStringStorage

/-!
Every call on an `sstring` leads to what the plain byte string is led to, and to agreement of the
two under the condition that the call is gentle; so does every sequence of calls.
-/

namespace Seastar.SStringStorage

open Lib.Fragments Storage

variable {L : Layout} {s x : Storage} {b m xs : List UInt8} {n pos : Nat} {c : Prop}

/-! The calls that change a string. -/

theorem append_matches (h : Good L s b) (xs : List UInt8) :
    Matches L True (append L s xs) (Plain.checked (b ++ xs)) := by
  simp only [append, h.load_all, Lib.ok_bind]
  apply build_matches trivial
  · simp
  · rw [h.size_eq, List.length_append]

theorem plus_matches (h : Good L s b) (hx : Good L x xs) (hc : c) :
    Matches L c (plus L s x) (Plain.checked (b ++ xs)) := by
  simp only [plus, h.load_all, hx.load_all, Lib.ok_bind]
  apply build_matches hc
  · simp
  · rw [h.size_eq, hx.size_eq, List.length_append]

theorem load_congr (h : x.str = s.str) : x.load pos n = s.load pos n := by
  rw [load, load, h]

/-- A string that is shortened in place has its terminator when the byte there is one. -/
theorem shorten_agrees (h : Good L s b) (hn : n < b.length) (hstr : x.str = s.str)
    (hsize : x.size = n) (hempty : x.empty = true ↔ n = 0) :
    (L.nulTerminate = true → b[n]? = some 0) ↔ Agrees L x (b.take n) := by
  have hload : x.load n 1 = .ok b[n]?.toList := by
    rw [load_congr hstr, h.load_eq n 1 hn, List.take_one, List.head?_drop]
  have hbyte : x.load n 1 = .ok [0] ↔ b[n]? = some 0 := by
    rw [hload]
    constructor
    · intro he
      exact Option.toList_eq_singleton_iff.mp (Except.ok.inj he)
    · intro he
      rw [he, Option.toList_some]
  constructor
  · intro hnul
    refine ⟨?_, by rw [hsize]; exact hempty, fun hL => ?_⟩
    · rw [hsize, load_congr hstr, h.load_eq 0 n (by omega), List.drop_zero]
    · rw [hsize]
      exact hbyte.mpr (hnul hL)
  · intro hagrees hL
    have hnul := hagrees.nul hL
    rw [hsize] at hnul
    exact hbyte.mp hnul

theorem resize_matches (h : Good L s b) (n : Nat) (c : UInt8) :
    Matches L (GentleEdit L b (.resize n c)) (resize L s n c)
      (Plain.checked (b.take n ++ List.replicate (n - b.length) c)) := by
  unfold resize
  rw [h.size_eq]
  by_cases hgrow : b.length < n
  · have hgentle : GentleEdit L b (.resize n c) := fun _ hn => absurd hn (by omega)
    rw [if_pos hgrow, List.take_of_length_le (Nat.le_of_lt hgrow)]
    by_cases hk : n - b.length < 2 ^ 32
    · obtain ⟨x, hx, hgood⟩ : ∃ x, fill L (n - b.length) c = .ok x ∧
          Good L x (List.replicate (n - b.length) c) :=
        build_ok (by simp) (by simp) (by simpa using hk)
      rw [hx, Lib.ok_bind]
      exact plus_matches h hgood hgentle
    · rw [fill, initializedLater_overflow (by omega), checked_overflow (by simp; omega)]
      exact ⟨rfl, Or.inr rfl, hgentle⟩
  · rw [if_neg hgrow, Nat.sub_eq_zero_of_le (by omega), List.replicate_zero, List.append_nil,
      checked_ok (by have := h.size_lt; rw [List.length_take]; omega)]
    by_cases hn : n < b.length
    · rw [if_pos hn]
      have hinternal := h.isInternal_iff
      have hwf := h.wf
      have hsize := h.size_eq
      cases s with
      | internal m k =>
        obtain rfl : k = b.length := hsize
        have hin := hinternal.mp rfl
        refine ⟨⟨hwf.1, by omega⟩, Iff.trans ?_ (shorten_agrees h hn rfl rfl (by simp [empty]))⟩
        constructor
        · intro hg hL
          exact (hg hL hn).resolve_left fun hext => by omega
        · intro hg hL _
          exact Or.inr (hg hL)
      | external m k =>
        obtain rfl : k = b.length := hsize
        have hext : L.maxSize < b.length + L.padding := by
          by_contra hle
          have := hinternal.mpr (by omega)
          cases this
        by_cases hfits : n + L.padding ≤ L.maxSize
        · obtain ⟨t, ht, hgood⟩ := make_ok L (b.take n) (by
            have := h.size_lt
            rw [List.length_take]
            omega)
          simp only [if_pos hfits, h.load_eq 0 n (by omega), Lib.ok_bind,
            List.drop_zero, ht]
          exact hgood.matches fun _ _ => Or.inl ⟨hext, hfits⟩
        · simp only [if_neg hfits]
          obtain ⟨rest, hstr⟩ := h.str_eq
          obtain rfl : m = _ := hstr
          have := L.external_fits
          have := padding_le_one L
          refine ⟨⟨by omega, by have := hwf.2; omega⟩, Iff.trans ?_ (shorten_agrees h hn rfl rfl ?_)⟩
          · constructor
            · intro hg hL
              exact (hg hL hn).resolve_left fun hin => hfits hin.2
            · intro hg hL _
              exact Or.inr (hg hL)
          · exact iff_of_false (fun he => by cases he) (by omega)
    · rw [if_neg hn, List.take_of_length_le (by omega)]
      exact h.matches fun _ hlt => absurd hlt hn

theorem replace_matches (h : Good L s b) (pos n1 : Nat) (xs : List UInt8) :
    Matches L True (replace L s pos n1 xs) (Plain.replace b pos n1 xs) := by
  rw [replace, Plain.replace, h.size_eq]
  by_cases hpos : b.length < pos
  · rw [if_pos hpos, if_pos hpos]
    exact ⟨rfl, Or.inl rfl, trivial⟩
  · rw [if_neg hpos, if_neg hpos]
    have hdrop : b.drop (pos + n1) = b.drop (pos + min n1 (b.length - pos)) := by
      by_cases hn : n1 ≤ b.length - pos
      · rw [Nat.min_eq_left hn]
      · rw [Nat.min_eq_right (by omega), List.drop_eq_nil_of_le (by omega),
          List.drop_eq_nil_of_le (by omega)]
    rw [hdrop]
    generalize hk : min n1 (b.length - pos) = k
    by_cases hsame : k = xs.length
    · simp only [if_pos hsame]
      obtain ⟨s', hs', hgood⟩ := store_ok h pos xs (by omega)
      rw [hs', hsame]
      rw [checked_ok]
      · exact hgood.matches trivial
      · exact hgood.size_lt
    · simp only [if_neg hsame, h.load_eq 0 pos (by omega),
        h.load_eq (pos + k) (b.length - (pos + k)) (by omega), Lib.ok_bind]
      apply build_matches trivial
      · simp only [List.flatten_cons, List.flatten_nil, List.append_nil, List.drop_zero]
        rw [List.take_of_length_le (l := b.drop (pos + k)) (by simp), List.append_assoc]
      · simp only [List.length_append, List.length_take, List.length_drop]
        omega

theorem replaceRange_matches (h : Good L s b) (i1 i2 : Int) (xs : List UInt8) :
    Matches L True (replaceRange L s i1 i2 xs) (Plain.replaceRange b i1 i2 xs) := by
  rw [replaceRange, Plain.replaceRange, h.size_eq]
  by_cases hout : i1 < 0 ∨ (b.length : Int) < i1 ∨ i2 < 0
  · rw [if_pos hout, if_pos hout]
    exact ⟨rfl, Or.inl rfl, trivial⟩
  · rw [if_neg hout, if_neg hout]
    obtain ⟨p, rfl⟩ := Int.eq_ofNat_of_zero_le (a := i1) (by omega)
    obtain ⟨q, rfl⟩ := Int.eq_ofNat_of_zero_le (a := i2) (by omega)
    obtain ⟨k, hk, hle, hdrop⟩ : ∃ k : Nat, min (q : Int) b.length = k ∧ k ≤ b.length ∧
        b.drop q = b.drop k := by
      refine ⟨min q b.length, by omega, by omega, ?_⟩
      by_cases hq : q ≤ b.length
      · rw [Nat.min_eq_left hq]
      · rw [Nat.min_eq_right (by omega), List.drop_length, List.drop_eq_nil_of_le (by omega)]
    simp only [hk, Int.toNat_natCast, hdrop]
    by_cases hsame : (k : Int) - p = xs.length
    · rw [if_pos hsame]
      obtain ⟨s', hs', hgood⟩ := store_ok h p xs (by omega)
      obtain rfl : k = p + xs.length := by omega
      rw [hs']
      rw [checked_ok]
      · exact hgood.matches trivial
      · exact hgood.size_lt
    · have hrest : ((b.length : Int) - k).toNat = b.length - k := by omega
      simp only [if_neg hsame, h.load_eq 0 p (by omega), hrest,
        h.load_eq k (b.length - k) (by omega), Lib.ok_bind]
      apply build_matches trivial
      · simp only [List.flatten_cons, List.flatten_nil, List.append_nil, List.drop_zero]
        rw [List.take_of_length_le (l := b.drop k) (by simp), List.append_assoc]
      · simp only [List.length_append, List.length_take, List.length_drop]
        omega

theorem edit_matches (h : Good L s b) (e : Edit) :
    Matches L (GentleEdit L b e) ((basicSString L).edit e s) (Plain.edit e b) := by
  cases e with
  | append xs => exact append_matches h xs
  | resize n c => exact resize_matches h n c
  | replace pos n1 xs => exact replace_matches h pos n1 xs
  | replaceRange i1 i2 xs => exact replaceRange_matches h i1 i2 xs
  | erase pos n => exact replace_matches h pos n []
  | insert p xs => exact replaceRange_matches h p p xs

/-! The calls that take a string from another. -/

theorem substr_matches (h : Good L s b) (start len : Nat) :
    Matches L True (substr L s start len) (Plain.substr b start len) := by
  rw [substr, Plain.substr, h.size_eq]
  by_cases hout : b.length < start
  · rw [if_pos hout, if_pos hout]
    exact ⟨rfl, Or.inl rfl, trivial⟩
  · rw [if_neg hout, if_neg hout]
    have htake : (b.drop start).take len = (b.drop start).take (min len (b.length - start)) := by
      rw [List.take_eq_take_min, List.length_drop]
    rw [htake]
    generalize hk : min len (b.length - start) = k
    have hlt : ((b.drop start).take k).length < 2 ^ 32 := by
      have := h.size_lt
      rw [List.length_take, List.length_drop]
      omega
    obtain ⟨t, ht, hgood⟩ := make_ok L _ hlt
    by_cases hzero : k = 0
    · subst hzero
      rw [List.take_zero] at ht hgood ⊢
      simp only [if_true, ht]
      exact hgood.matches trivial
    · simp only [if_neg hzero, h.load_eq start k (by omega), Lib.ok_bind, ht]
      exact hgood.matches trivial

/-- A copy has the bytes and the terminator, unless their number wraps. -/
theorem copy_matches (h : Good L s b) : Matches L (GentleCopy L b) (copy L s) (.ok b) := by
  have hwf := h.wf
  have hsize := h.size_eq
  have hlt := h.size_lt
  have hpad := padding_le_one L
  obtain ⟨rest, hstr⟩ := h.str_eq
  have := L.external_fits
  have := L.size_fits
  cases s with
  | internal m n =>
    refine h.matches ?_
    obtain rfl : n = b.length := hsize
    rw [GentleCopy]
    have := hwf.2
    omega
  | external m n =>
    obtain rfl : n = b.length := hsize
    obtain rfl : m = _ := hstr
    rw [copy]
    by_cases hfits : b.length + L.padding < 2 ^ 32
    · rw [Nat.mod_eq_of_lt hfits, load_some rfl (by simp [Layout.padding]), Lib.ok_bind,
        List.drop_zero, List.take_left' (by simp [Layout.padding])]
      refine Storage.Good.matches ⟨hwf, rfl, [], ?_⟩ hfits
      rw [List.append_nil]
      rfl
    · have hwrap : b.length + L.padding = 2 ^ 32 := by omega
      rw [hwrap, Nat.mod_self, load, if_pos rfl, Lib.ok_bind]
      refine ⟨hwf, iff_of_false hfits fun hagrees => ?_⟩
      have hle := le_of_load_ok rfl (by rw [size]; omega) hagrees.bytes
      rw [size, List.length_nil] at hle
      omega

theorem length_inlineStr (h : s.Wf L) : (inlineStr L s).length = L.maxSize := by
  cases s with
  | internal m n => exact h.1
  | external m n => exact List.length_replicate

/-- What is left of a string that has no bytes any more. -/
theorem emptied_good (rest : List UInt8) (hm : m.length = L.maxSize)
    (hlen : (L.terminator ++ rest).length ≤ L.maxSize) :
    Good L (internal (overwrite m 0 (L.terminator ++ rest)) 0) [] where
  wf := by
    have := padding_le_one L
    have := L.external_fits
    refine ⟨?_, by omega⟩
    rw [length_overwrite (by omega), hm]
  size_eq := rfl
  str_eq := by
    refine ⟨rest ++ m.drop (0 + (L.terminator ++ rest).length), ?_⟩
    simp only [str, overwrite, List.take_zero, List.nil_append, List.append_assoc]

theorem reset_good (h : s.Wf L) : Good L (reset L s) [] := by
  have := padding_le_one L
  have := L.external_fits
  have hgood := emptied_good (L := L) [] (length_inlineStr h) (by
    rw [List.append_nil]
    exact Nat.le_trans (padding_le_one L) (by omega))
  rwa [List.append_nil] at hgood

theorem moved_good (h : s.Wf L) : Good L (moved L s) [] := by
  have := L.external_fits
  obtain ⟨rest, hrest⟩ : ∃ rest, [0] = L.terminator ++ rest := by
    rw [Layout.terminator]
    split
    · exact ⟨[], rfl⟩
    · exact ⟨[0], rfl⟩
  rw [moved, hrest]
  exact emptied_good rest (length_inlineStr h) (by rw [← hrest, List.length_singleton]; omega)

/-- A released string gives its bytes away; one that kept them in a block is no empty string. -/
theorem release_spec (h : Good L s b) : (release L s).1 = b ∧ (release L s).2.Wf L ∧
    (b.length + L.padding ≤ L.maxSize ↔ Agrees L (release L s).2 []) := by
  have hwf := h.wf
  have hsize := h.size_eq
  have hinternal := h.isInternal_iff
  obtain ⟨rest, hstr⟩ := h.str_eq
  cases s with
  | internal m n =>
    obtain rfl : m = _ := Option.some.inj hstr
    obtain rfl : n = b.length := hsize
    have hgood := reset_good hwf
    refine ⟨?_, hgood.wf, iff_of_true (hinternal.mp rfl) hgood.agrees⟩
    rw [release, List.append_assoc, List.take_left]
  | external m n =>
    obtain rfl : m = _ := hstr
    obtain rfl : n = b.length := hsize
    refine ⟨?_, rfl, iff_of_false (fun he => ?_) fun hagrees => ?_⟩
    · rw [release, Option.getD_some, List.append_assoc, List.take_left]
    · have := hinternal.mpr he
      cases this
    · have := hagrees.empty_iff.mpr rfl
      cases this

/-! What a call leads to, in the two states. -/

/-- Two lists agree at every place. -/
def Pointwise {α β : Type} (R : α → β → Prop) (l : List α) (k : List β) : Prop :=
  ∀ i : Nat, Option.Rel R l[i]? k[i]?

section Pointwise

variable {α β : Type} {R : α → β → Prop} {l : List α} {k : List β} {a : α} {d : β} {i : Nat}

theorem Pointwise.length_eq (h : Pointwise R l k) : l.length = k.length := by
  have hle : ∀ i, l.length ≤ i ↔ k.length ≤ i := by
    intro i
    rw [← List.getElem?_eq_none_iff, ← List.getElem?_eq_none_iff]
    have := h i
    generalize l[i]? = x at this
    generalize k[i]? = y at this
    cases this with
    | some => exact iff_of_false (fun he => by cases he) fun he => by cases he
    | none => exact iff_of_true rfl rfl
  exact Nat.le_antisymm ((hle _).mpr (Nat.le_refl _)) ((hle _).mp (Nat.le_refl _))

theorem Pointwise.rel (h : Pointwise R l k) (hl : l[i]? = some a) (hk : k[i]? = some d) :
    R a d := by
  have := h i
  rw [hl, hk] at this
  cases this with
  | some hr => exact hr

/-- One more element on both sides. -/
theorem Pointwise.push_iff (h : Pointwise R l k) : Pointwise R (l ++ [a]) (k ++ [d]) ↔ R a d := by
  have hlen := h.length_eq
  constructor
  · intro h'
    exact h'.rel (i := l.length) (by simp) (by simp [hlen])
  · intro hr i
    by_cases hi : i < l.length
    · rw [List.getElem?_append_left hi, List.getElem?_append_left (hlen ▸ hi)]
      exact h i
    · rw [List.getElem?_append_right (by omega), List.getElem?_append_right (by omega), hlen]
      cases i - k.length with
      | zero => exact .some hr
      | succ n => exact .none

/-- One element on both sides is another. -/
theorem Pointwise.set_iff (h : Pointwise R l k) (hi : i < l.length) :
    Pointwise R (l.set i a) (k.set i d) ↔ R a d := by
  have hlen := h.length_eq
  constructor
  · intro h'
    refine h'.rel (i := i) ?_ ?_
    · rw [List.getElem?_set, if_pos rfl, if_pos hi]
    · rw [List.getElem?_set, if_pos rfl, if_pos (hlen ▸ hi)]
  · intro hr j
    rw [List.getElem?_set, List.getElem?_set]
    by_cases hij : i = j
    · rw [if_pos hij, if_pos hij, if_pos hi, if_pos (hlen ▸ hi)]
      exact .some hr
    · rw [if_neg hij, if_neg hij]
      exact h j

end Pointwise

section Calls

variable {S S' : State Storage} {T T' : State (List UInt8)} {d : Prop} {i j : Nat}
  {r : Except Fault Storage} {q : Except Fault (List UInt8)}
  {v : Except Fault (State Storage)} {w : Except Fault (State (List UInt8))}

/-- No string is broken. -/
def AllWf (L : Layout) (S : State Storage) : Prop := ∀ s ∈ S.strings, s.Wf L

/-- A call ends in two states that agree exactly if `c` holds. -/
def Leads (L : Layout) (c : Prop) (v : Except Fault (State Storage))
    (w : Except Fault (State (List UInt8))) : Prop :=
  ∃ S T, v = .ok S ∧ w = .ok T ∧ AllWf L S ∧ (c ↔ Agree L (S, T))

theorem Leads.congr (h : Leads L c v w) (hcd : c ↔ d) : Leads L d v w := by
  obtain ⟨S, T, hS, hT, hwf, hc⟩ := h
  exact ⟨S, T, hS, hT, hwf, hcd.symm.trans hc⟩

theorem Agree.unchanged (h : Agree L (S, T)) (hwf : AllWf L S) (hc : c) :
    Leads L c (.ok S) (.ok T) :=
  ⟨S, T, rfl, rfl, hwf, iff_of_true hc h⟩

theorem AllWf.push (h : AllWf L S) (hs : s.Wf L) : AllWf L (S.push s) := by
  intro t ht
  rcases List.mem_append.mp ht with ht | ht
  · exact h t ht
  · obtain rfl := List.mem_singleton.mp ht
    exact hs

theorem AllWf.set (h : AllWf L S) (hs : s.Wf L) : AllWf L (S.set i s) := by
  intro t ht
  rcases List.mem_or_eq_of_mem_set ht with ht | rfl
  · exact h t ht
  · exact hs

theorem Agree.push_iff (h : Agree L (S, T)) :
    Agrees L s b ↔ Agree L (S.push s, T.push b) := by
  constructor
  · intro hs
    exact ⟨(Pointwise.push_iff h.strings).mpr hs, h.released, h.thrown⟩
  · intro h'
    exact (Pointwise.push_iff h.strings).mp h'.strings

theorem Agree.set_iff (h : Agree L (S, T)) (hi : S.strings[i]? = some x) :
    Agrees L s b ↔ Agree L (S.set i s, T.set i b) := by
  have hlt := (List.getElem?_eq_some_iff.mp hi).1
  constructor
  · intro hs
    exact ⟨(Pointwise.set_iff h.strings hlt).mpr hs, h.released, h.thrown⟩
  · intro h'
    exact (Pointwise.set_iff h.strings hlt).mp h'.strings

/-- A call whose result is put into the state. -/
theorem call_leads {put : Storage → State Storage} {put' : List UInt8 → State (List UInt8)}
    (h : Agree L (S, T)) (hwf : AllWf L S) (hrq : Matches L c r q)
    (hput : ∀ s b, s.Wf L → AllWf L (put s) ∧ (Agrees L s b ↔ Agree L (put s, put' b))) :
    Leads L c (S.call r put) (T.call q put') := by
  cases r with
  | ok s =>
    cases q with
    | error f => cases hrq
    | ok b =>
      obtain ⟨hs, hc⟩ := hrq
      obtain ⟨hall, hagree⟩ := hput s b hs
      exact ⟨put s, put' b, rfl, rfl, hall, hc.trans hagree⟩
  | error e =>
    cases q with
    | ok b => cases hrq
    | error f =>
      obtain ⟨rfl, he, hc⟩ := hrq
      refine ⟨{ S with thrown := S.thrown ++ [e] }, { T with thrown := T.thrown ++ [e] },
        if_pos he, if_pos he, hwf, iff_of_true hc ⟨h.strings, h.released, ?_⟩⟩
      exact congrArg (· ++ [e]) h.thrown

theorem push_leads (h : Agree L (S, T)) (hwf : AllWf L S) (hrq : Matches L c r q) :
    Leads L c (S.call r S.push) (T.call q T.push) :=
  call_leads h hwf hrq fun _ _ hs => ⟨hwf.push hs, h.push_iff⟩

theorem set_leads (h : Agree L (S, T)) (hwf : AllWf L S) (hi : S.strings[i]? = some x)
    (hrq : Matches L c r q) : Leads L c (S.call r (S.set i)) (T.call q (T.set i)) :=
  call_leads h hwf hrq fun _ _ hs => ⟨hwf.set hs, h.set_iff hi⟩

/-- A call on a string, when there is one. -/
theorem on_leads {f : Storage → Except Fault (State Storage)}
    {g : List UInt8 → Except Fault (State (List UInt8))} {C : List UInt8 → Prop}
    (h : Agree L (S, T)) (hwf : AllWf L S)
    (hfg : ∀ s b, S.strings[i]? = some s → T.strings[i]? = some b → Good L s b →
      Leads L (C b) (f s) (g b)) :
    Leads L (∀ b, T.strings[i]? = some b → C b) (S.on i f) (T.on i g) := by
  have hrel := h.strings i
  cases hs : S.strings[i]? with
  | none =>
    cases hb : T.strings[i]? with
    | some b =>
      rw [hs, hb] at hrel
      cases hrel
    | none =>
      rw [State.on, hs, State.on, hb]
      exact h.unchanged hwf fun b he => by cases he
  | some s =>
    cases hb : T.strings[i]? with
    | none =>
      rw [hs, hb] at hrel
      cases hrel
    | some b =>
      rw [hs, hb] at hrel
      rw [State.on, hs, State.on, hb]
      have hagrees : Agrees L s b := by
        cases hrel with
        | some hr => exact hr
      have hgood := good_iff.mpr ⟨hwf s (List.mem_of_getElem? hs), hagrees⟩
      refine (hfg s b hs hb hgood).congr ⟨fun hc b' he => ?_, fun hc => hc b rfl⟩
      obtain rfl := Option.some.inj he
      exact hc

theorem step_leads (h : Agree L (S, T)) (hwf : AllWf L S) (op : Op) :
    Leads L (Gentle L (S, T) op) (step (basicSString L) S op) (step Plain.impl T op) := by
  cases op with
  | make xs => exact (push_leads h hwf (make_matches xs)).congr Iff.rfl
  | fill n c => exact (push_leads h hwf (fill_matches n c)).congr Iff.rfl
  | edit i e => exact on_leads h hwf fun s b hs _ hgood => set_leads h hwf hs (edit_matches hgood e)
  | substr i start len =>
    refine Leads.congr (on_leads (C := fun _ => True) h hwf fun s b _ _ hgood => ?_)
      (iff_of_true (fun _ _ => trivial) trivial)
    exact push_leads h hwf (substr_matches hgood start len)
  | copy i => exact on_leads h hwf fun s b _ _ hgood => push_leads h hwf (copy_matches hgood)
  | assign i j =>
    refine on_leads h hwf fun s _ hs _ _ => ?_
    exact on_leads h hwf fun x b _ _ hgood => set_leads h hwf hs (copy_matches hgood)
  | move i =>
    refine Leads.congr (on_leads (C := fun _ => True) h hwf fun s b hs _ hgood => ?_)
      (iff_of_true (fun _ _ => trivial) trivial)
    have hmoved := moved_good hgood.wf
    have hset : Agree L (S.set i (moved L s), T.set i []) := (h.set_iff hs).mp hmoved.agrees
    exact (hset.push_iff.mp hgood.agrees).unchanged ((hwf.set hmoved.wf).push hgood.wf) trivial
  | moveAssign i j =>
    rw [step, step]
    by_cases hij : i = j
    · rw [if_pos hij, if_pos hij]
      exact h.unchanged hwf trivial
    · rw [if_neg hij, if_neg hij]
      refine Leads.congr (on_leads (C := fun _ => ∀ b, T.strings[j]? = some b → True) h hwf
        fun s _ hs _ hgood => on_leads h hwf fun x b hx _ hgoodx => ?_)
        (iff_of_true (fun _ _ _ _ => trivial) trivial)
      have hreset := reset_good hgood.wf
      have hset : Agree L (S.set i x, T.set i b) := (h.set_iff hs).mp hgoodx.agrees
      have hj : (S.set i x).strings[j]? = some x := by
        rw [State.set, List.getElem?_set, if_neg hij, hx]
      exact ((hset.set_iff hj).mp hreset.agrees).unchanged
        ((hwf.set hgoodx.wf).set hreset.wf) trivial
  | release i =>
    refine on_leads h hwf fun s b hs _ hgood => ?_
    obtain ⟨hbytes, hwf', hiff⟩ := release_spec hgood
    refine ⟨_, _, rfl, rfl, hwf.set (i := i) hwf', hiff.trans ((h.set_iff hs).trans ?_)⟩
    constructor
    · intro ha
      exact ⟨ha.strings, congrArg₂ (fun l x => l ++ [x]) h.released hbytes, ha.thrown⟩
    · intro ha
      exact ⟨ha.strings, h.released, ha.thrown⟩

end Calls

/-- The `sstring`s and the plain byte strings after some calls. -/
def history (L : Layout) (ops : List Op) : Except Fault (State Storage × State (List UInt8)) :=
  Lib.Run.run (both L) (State.start, State.start) ops

theorem both_step {p : State Storage × State (List UInt8)} (op : Op) (hwf : AllWf L p.1)
    (h : Agree L p) :
    ∃ p', both L p op = .ok p' ∧ AllWf L p'.1 ∧ (Gentle L p op ↔ Agree L p') := by
  obtain ⟨S, T, hS, hT, hwf', hiff⟩ := step_leads h hwf op
  refine ⟨(S, T), ?_, hwf', hiff⟩
  rw [both, hS, Lib.ok_bind, hT, Lib.ok_bind]

theorem start_agree : Agree L (State.start, State.start) :=
  ⟨fun _ => .none, rfl, rfl⟩

/-- After every call of a sequence each string says what the plain one says, is `empty()` when its
size is 0 and has its terminator, exactly if every call is a gentle one. -/
theorem history_agrees_iff (L : Layout) (ops : List Op) :
    (∃ p, history L ops = .ok p) ∧
        Lib.Run.Throughout (both L) (Agree L) (State.start, State.start) ops ↔
      Lib.Run.Along (both L) (Gentle L) (State.start, State.start) ops := by
  have hstart : AllWf L (State.start : State Storage) := by
    intro s hs
    cases hs
  have hiff : Lib.Run.Along (both L) (Gentle L) (State.start, State.start) ops ↔
      Lib.Run.Throughout (both L) (Agree L) (State.start, State.start) ops :=
    Lib.Run.along_iff_throughout (fun _ op hwf h => both_step op hwf h) hstart start_agree
  constructor
  · intro h
    exact hiff.mpr h.2
  · intro h
    obtain ⟨p, hp, -⟩ := Lib.Run.run_ok (I := fun p => AllWf L p.1 ∧ Agree L p)
      (fun p op hI hg => by
        obtain ⟨p', hp', hwf, hgentle⟩ := both_step op hI.1 hI.2
        exact ⟨p', hp', hwf, hgentle.mp hg⟩) ⟨hstart, start_agree⟩ h
    exact ⟨⟨p, hp⟩, hiff.mp h⟩

/-- `sstring`: 15 bytes in the object. -/
def sstringLayout : Layout := ⟨15, true, 0xa5, by decide, by decide⟩

/-- A string of two bytes, shortened to one, is followed by the other. -/
theorem history_shorten :
    ¬ ∀ ops, Lib.Run.Throughout (both sstringLayout) (Agree sstringLayout)
      (State.start, State.start) ops := by
  intro h
  have hmade := (h [.make [97, 98], .edit 0 (.resize 1 0)]).2 _ rfl
  have hstrings := (hmade.2 _ rfl).strings 0
  cases hstrings with
  | some hagrees =>
    have := hagrees.nul rfl
    revert this
    decide

end Seastar.SStringStorage
