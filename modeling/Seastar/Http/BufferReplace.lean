import Seastar.Http.Transformers
import Seastar.Lib.Replace

/-!
What `buffer_replace` does with a buffer. Its state between two buffers is a parked text: the
beginning of a key in its braces that may still be completed. A round of `replace` writes something
and leaves a parked text and a rest of the buffer; what can happen in it is `Round`.
-/

namespace Seastar.Http

open Lib.Replace

/-- A key that the replacement is meant for, with no null in it. -/
structure Plain (key : Bytes) : Prop where
  ne_nil : key ≠ []
  openBrace : openBrace ∉ key
  closeBrace : closeBrace ∉ key
  null : 0 ∉ key

/-- Every key of the table is a plain one in its braces. -/
def Braced (values : List (Bytes × Bytes)) : Prop :=
  ∀ e ∈ values, ∃ key, Plain key ∧ e.1 = braced key

/-! ## Keys in their braces -/

theorem braced_eq (key : Bytes) :
    braced key = openBrace :: openBrace :: (key ++ [closeBrace, closeBrace]) := rfl

theorem isPrefix_closed {k₁ k₂ : Bytes} (h₁ : closeBrace ∉ k₁) (h₂ : closeBrace ∉ k₂)
    (h : k₁ ++ [closeBrace, closeBrace] <+: k₂ ++ [closeBrace, closeBrace]) : k₁ = k₂ := by
  induction k₁ generalizing k₂ with
  | nil =>
    cases k₂ with
    | nil => rfl
    | cons c k₂ =>
      obtain ⟨hc, -⟩ := List.cons_prefix_cons.mp h
      exact absurd (by simp [← hc]) h₂
  | cons a k₁ ih =>
    cases k₂ with
    | nil =>
      obtain ⟨ha, -⟩ := List.cons_prefix_cons.mp h
      exact absurd (by simp [ha]) h₁
    | cons c k₂ =>
      obtain ⟨rfl, ht⟩ := List.cons_prefix_cons.mp h
      rw [ih (fun hm => h₁ (.tail _ hm)) (fun hm => h₂ (.tail _ hm)) ht]

/-- No key in its braces is a proper beginning of another. -/
theorem eq_of_isPrefix {values : List (Bytes × Bytes)} (hv : Braced values) {d e : Bytes × Bytes}
    (hd : d ∈ values) (he : e ∈ values) (h : d.1 <+: e.1) : d.1 = e.1 := by
  obtain ⟨k₁, h₁, hk₁⟩ := hv d hd
  obtain ⟨k₂, h₂, hk₂⟩ := hv e he
  rw [hk₁, hk₂] at h ⊢
  have hclosed := (List.prefix_append_right_inj [openBrace, openBrace]).mp
    (by simpa only [braced, List.append_assoc] using h)
  rw [isPrefix_closed h₁.closeBrace h₂.closeBrace hclosed]

variable {values : List (Bytes × Bytes)} {e : Bytes × Bytes} {q buf out s t : Bytes}

/-- Two keys that a text begins with are the same. -/
theorem eq_of_common (hv : Braced values) {d : Bytes × Bytes} (hd : d ∈ values) (he : e ∈ values)
    (h : d.1 <+: s) (h' : e.1 <+: s) : d.1 = e.1 := by
  rcases Nat.le_total d.1.length e.1.length with hle | hle
  · exact eq_of_isPrefix hv hd he (List.prefix_of_prefix_length_le h h' hle)
  · exact (eq_of_isPrefix hv he hd (List.prefix_of_prefix_length_le h' h hle)).symm

/-- What follows does not change which key a text begins with. -/
theorem pick_append (hv : Braced values) (h : pick values s = some e) :
    pick values (s ++ t) = some e := by
  have he := pick_mem h
  have hs := pick_isPrefix h
  rw [← h]
  refine pick_congr fun d hd => ⟨fun hp => ?_, fun hp => hp.trans (List.prefix_append s t)⟩
  rwa [eq_of_common hv hd he hp (hs.trans (List.prefix_append s t))]

theorem begins (hv : Braced values) (he : e ∈ values) (h : e.1 <+: s) :
    ∃ c s', c ≠ openBrace ∧ s = openBrace :: openBrace :: c :: s' := by
  obtain ⟨key, hkey, heq⟩ := hv e he
  obtain ⟨u, hu⟩ := h
  cases key with
  | nil => exact absurd rfl hkey.ne_nil
  | cons c key =>
    refine ⟨c, key ++ [closeBrace, closeBrace] ++ u, ?_, ?_⟩
    · exact fun hc => hkey.openBrace (by simp [hc])
    · rw [← hu, heq, braced_eq]
      rfl

/-- An occurrence begins with exactly two braces. -/
theorem pick_begins (hv : Braced values) (h : pick values s = some e) :
    ∃ c s', c ≠ openBrace ∧ s = openBrace :: openBrace :: c :: s' :=
  begins hv (pick_mem h) (pick_isPrefix h)

theorem pick_none {c : UInt8} (hv : Braced values) (h : c ≠ openBrace ∨ s.head? ≠ some openBrace) :
    pick values (c :: s) = none := by
  cases hp : pick values (c :: s) with
  | none => rfl
  | some e =>
    obtain ⟨d, s', -, hs⟩ := pick_begins hv hp
    obtain ⟨rfl, rfl⟩ := List.cons.inj hs
    simp at h

theorem clear_of_notMem (hv : Braced values) (h : openBrace ∉ s) (t : Bytes) :
    Clear values s t := by
  induction s with
  | nil => trivial
  | cons c s ih =>
    exact ⟨pick_none hv (.inl fun hc => h (by simp [hc])), ih fun hm => h (.tail _ hm)⟩

/-! ## `find_braces` -/

/-- Where no braces are found, no occurrence begins, whatever follows. -/
theorem clear_of_findBraces_none (hv : Braced values) (h : findBraces buf = none) (t : Bytes) :
    Clear values buf t := by
  fun_induction findBraces buf with
  | case1 => trivial
  | case2 => cases h
  | case3 c hc => exact ⟨pick_none hv (.inl hc), trivial⟩
  | case4 => cases h
  | case5 c d s hcd ih =>
    refine ⟨pick_none hv ?_, ih (by simpa using h)⟩
    by_cases hc : c = openBrace
    · exact .inr fun hd => hcd ⟨hc, by simpa using hd⟩
    · exact .inl hc

/-- What `find_braces` finds: an open brace, with a second one or the end behind it. -/
theorem findBraces_some {i : Nat} (h : findBraces buf = some i) :
    ∃ p r, buf = p ++ openBrace :: r ∧ i = p.length ∧ (r = [] ∨ ∃ r', r = openBrace :: r') ∧
      ∀ {values : List (Bytes × Bytes)}, Braced values → ∀ t,
        Clear values p (openBrace :: (r ++ t)) := by
  fun_induction findBraces buf generalizing i with
  | case1 => cases h
  | case2 =>
    obtain rfl := Option.some.inj h
    exact ⟨[], [], rfl, rfl, .inl rfl, fun _ _ => trivial⟩
  | case3 => cases h
  | case4 c d s hcd =>
    obtain rfl := Option.some.inj h
    exact ⟨[], d :: s, by simp [hcd.1], rfl, .inr ⟨s, by rw [hcd.2]⟩, fun _ _ => trivial⟩
  | case5 c d s hcd ih =>
    obtain ⟨j, hj, rfl⟩ := Option.map_eq_some_iff.mp h
    obtain ⟨p, r, hs, rfl, hr, hclear⟩ := ih hj
    refine ⟨c :: p, r, by rw [hs, List.cons_append], rfl, hr, fun hv t => ⟨?_, hclear hv t⟩⟩
    refine pick_none hv ?_
    by_cases hc : c = openBrace
    · refine .inr fun hd => hcd ⟨hc, ?_⟩
      have hhead : (p ++ openBrace :: (r ++ t)).head? = some d := by
        have : p ++ openBrace :: (r ++ t) = d :: s ++ t := by rw [hs]; simp
        rw [this]
        rfl
      rw [hhead] at hd
      exact Option.some.inj hd
    · exact .inl hc

/-! ## The parked text -/

/-- Some key begins with the text. -/
def Open (values : List (Bytes × Bytes)) (q : Bytes) : Prop := ∃ e ∈ values, q <+: e.1

/-- Nothing is parked, or the beginning of a key that no key is complete in. -/
def Valid (values : List (Bytes × Bytes)) (q : Bytes) : Prop :=
  q = [] ∨ q ≠ [] ∧ Open values q ∧ pick values q = none

/-- The entries for the keys that begin with the parked text. -/
def entries (q : Bytes) : List ((Bytes × Bytes) × Nat) → List PotentialMatchEntry
  | [] => []
  | kv :: kvs =>
    if q <+: kv.1.1 then { rest := kv.1.1.drop q.length, pos := kv.2 } :: entries q kvs
    else entries q kvs

/-- The state after the parked text. -/
def current (values : List (Bytes × Bytes)) (q : Bytes) : List PotentialMatchEntry :=
  if q = [] then [] else entries q values.zipIdx

theorem entries_ne_nil {kvs : List ((Bytes × Bytes) × Nat)} :
    entries q kvs ≠ [] ↔ ∃ kv ∈ kvs, q <+: kv.1.1 := by
  induction kvs with
  | nil => simp [entries]
  | cons kv kvs ih =>
    by_cases h : q <+: kv.1.1
    · simp [entries, h]
    · simp [entries, h, ih]

theorem current_ne_nil (hq : q ≠ []) : current values q ≠ [] ↔ Open values q := by
  rw [current, if_neg hq, entries_ne_nil]
  constructor
  · rintro ⟨kv, hkv, h⟩
    exact ⟨kv.1, List.fst_mem_of_mem_zipIdx hkv, h⟩
  · rintro ⟨e, he, h⟩
    rw [← List.zipIdx_map_fst 0 values] at he
    obtain ⟨kv, hkv, rfl⟩ := List.mem_map.mp he
    exact ⟨kv, hkv, h⟩

theorem open_cases (hv : Braced values) (h : Open values q) (hq : q ≠ []) :
    q = [openBrace] ∨ q = [openBrace, openBrace] ∨
      ∃ c q', q = openBrace :: openBrace :: c :: q' ∧ openBrace ∉ c :: q' := by
  obtain ⟨e, he, hqe⟩ := h
  obtain ⟨key, hkey, heq⟩ := hv e he
  rw [heq, braced_eq] at hqe
  match q, hq, hqe with
  | [a], _, hqe =>
    obtain ⟨rfl, -⟩ := List.cons_prefix_cons.mp hqe
    exact .inl rfl
  | [a, b], _, hqe =>
    obtain ⟨ha, hqe⟩ := List.cons_prefix_cons.mp hqe
    obtain ⟨hb, -⟩ := List.cons_prefix_cons.mp hqe
    exact .inr (.inl (by rw [ha, hb]))
  | a :: b :: c :: q', _, hqe =>
    obtain ⟨ha, hqe⟩ := List.cons_prefix_cons.mp hqe
    obtain ⟨hb, hqe⟩ := List.cons_prefix_cons.mp hqe
    refine .inr (.inr ⟨c, q', by rw [ha, hb], fun hm => ?_⟩)
    rcases List.mem_append.mp (hqe.subset hm) with hm | hm
    · exact hkey.openBrace hm
    · exact absurd hm (by decide)

/-- No occurrence begins inside of a parked text that is not completed, except at the second of two
braces. -/
theorem Valid.clear (hv : Braced values) (h : Valid values q) (hno : pick values (q ++ s) = none)
    (hsecond : q = [openBrace, openBrace] → pick values (openBrace :: s) = none) :
    Clear values q s := by
  rcases h with rfl | ⟨hq, hopen, -⟩
  · trivial
  · rcases open_cases hv hopen hq with rfl | rfl | ⟨c, q', rfl, hc⟩
    · exact ⟨hno, trivial⟩
    · exact ⟨hno, hsecond rfl, trivial⟩
    · refine ⟨hno, pick_none hv (.inr ?_), clear_of_notMem hv hc s⟩
      intro hhead
      exact hc (by simp [← Option.some.inj hhead])

theorem pick_nil (hv : Braced values) : pick values [] = none := by
  cases hp : pick values [] with
  | none => rfl
  | some e =>
    obtain ⟨c, s', -, hs⟩ := pick_begins hv hp
    cases hs

theorem Valid.pick_none (hv : Braced values) (h : Valid values q) : pick values q = none := by
  rcases h with rfl | ⟨-, -, h⟩
  · exact pick_nil hv
  · exact h

/-- A parked text that nothing follows stays. -/
theorem Valid.replaceAll_eq (hv : Braced values) (h : Valid values q) :
    replaceAll values q = q := by
  refine replaceAll_of_clear (h.clear hv ?_ fun _ => Http.pick_none hv (.inr (by simp)))
  rw [List.append_nil]
  exact h.pick_none hv

/-! ## `match` -/

theorem strncmp_eq_zero {a b : Bytes} {n : Nat} (h0 : 0 ∉ a) (ha : n ≤ a.length)
    (hb : n ≤ b.length) :
    strncmp a b n = 0 ↔ a.take n = b.take n := by
  induction n generalizing a b with
  | zero => simp [strncmp]
  | succ n ih =>
    cases a with
    | nil => simp at ha
    | cons x a =>
      cases b with
      | nil => simp at hb
      | cons y b =>
        have hx : x ≠ 0 := fun h => h0 (by simp [h])
        have ih := ih (fun hm => h0 (.tail _ hm)) (Nat.le_of_succ_le_succ ha)
          (Nat.le_of_succ_le_succ hb)
        by_cases hxy : x = y
        · subst hxy
          simp [strncmp, hx, ih]
        · have hne : (x.toNat : Int) - y.toNat ≠ 0 := by
            intro h
            exact hxy (UInt8.toNat_inj.mp (by omega))
          simp [strncmp, hxy, hne]

/-- Comparing what is missing of a key with the buffer: they agree when one of them begins with the
other. -/
theorem strncmp_rest (buf : Bytes) {k : Bytes} (h0 : 0 ∉ k) (hq : q <+: k) :
    strncmp (k.drop q.length) buf (min buf.length (k.drop q.length).length) = 0 ↔
      k <+: q ++ buf ∨ q ++ buf <+: k := by
  obtain ⟨r, rfl⟩ := hq
  rw [List.drop_left, List.prefix_append_right_inj, List.prefix_append_right_inj,
    strncmp_eq_zero (fun hm => h0 (by simp [hm])) (Nat.min_le_right _ _) (Nat.min_le_left _ _)]
  rcases Nat.le_total r.length buf.length with hle | hle
  · rw [Nat.min_eq_right hle, List.take_length]
    constructor
    · exact fun h => .inl (List.prefix_iff_eq_take.mpr h)
    · rintro (h | h)
      · exact List.prefix_iff_eq_take.mp h
      · rw [h.eq_of_length_le hle, List.take_length]
  · rw [Nat.min_eq_left hle, List.take_length]
    constructor
    · exact fun h => .inr (List.prefix_iff_eq_take.mpr h.symm)
    · rintro (h | h)
      · rw [h.eq_of_length_le hle, List.take_length]
      · exact (List.prefix_iff_eq_take.mp h).symm

section MatchLoop

variable {br : BufferReplace} {before later : List PotentialMatchEntry} {k : Bytes} {pos : Nat}
  {kvs : List ((Bytes × Bytes) × Nat)}

theorem matchLoop_fail (h0 : 0 ∉ k) (hq : q <+: k) (hfull : ¬ k <+: q ++ buf)
    (hmore : ¬ q ++ buf <+: k) (hlast : before ≠ [] ∨ later ≠ []) :
    br.matchLoop buf before (⟨k.drop q.length, pos⟩ :: later) = br.matchLoop buf before later := by
  have hne := mt (strncmp_rest buf h0 hq).mp (by simp [hfull, hmore])
  have hlen : (before ++ ⟨k.drop q.length, pos⟩ :: later).length ≠ 1 := by
    rw [List.length_append, List.length_cons]
    rcases hlast with h | h
    · have := List.length_pos_iff.mpr h
      omega
    · have := List.length_pos_iff.mpr h
      omega
  rw [BufferReplace.matchLoop]
  simp only [hne, hlen, ne_eq, not_false_eq_true, if_true, if_false]

theorem matchLoop_last (h0 : 0 ∉ k) (hq : q <+: k) (hfull : ¬ k <+: q ++ buf)
    (hmore : ¬ q ++ buf <+: k) (hkey : br.getKey pos = k) :
    br.matchLoop buf [] [⟨k.drop q.length, pos⟩] = ⟨q, buf, { br with current := [] }⟩ := by
  have hne := mt (strncmp_rest buf h0 hq).mp (by simp [hfull, hmore])
  have hrest : k.take (k.length - (k.drop q.length).length) = q := by
    obtain ⟨r, rfl⟩ := hq
    simp
  have hremaining : ({ br with current := [⟨k.drop q.length, pos⟩] } : BufferReplace).getRemaining =
      q := by
    show (br.getKey pos).take ((br.getKey pos).length - (k.drop q.length).length) = q
    rw [hkey, hrest]
  rw [BufferReplace.matchLoop]
  simp only [hne, ne_eq, not_false_eq_true, if_true, List.nil_append, List.length_singleton,
    hremaining]

theorem matchLoop_more (h0 : 0 ∉ k) (hq : q <+: k) (hfull : ¬ k <+: q ++ buf)
    (hmore : q ++ buf <+: k) :
    br.matchLoop buf before (⟨k.drop q.length, pos⟩ :: later) =
      br.matchLoop buf (before ++ [⟨k.drop (q ++ buf).length, pos⟩]) later := by
  have heq := (strncmp_rest buf h0 hq).mpr (.inr hmore)
  have hlen : buf.length < (k.drop q.length).length := by
    obtain ⟨r, rfl⟩ := hmore
    rw [List.append_assoc, List.drop_left, List.length_append]
    have hr : r ≠ [] := by
      rintro rfl
      exact hfull (by simp)
    have := List.length_pos_iff.mpr hr
    omega
  rw [BufferReplace.matchLoop]
  simp only [heq, ne_eq, not_true_eq_false, if_false]
  rw [if_neg (by omega), Nat.min_eq_left (Nat.le_of_lt hlen), List.drop_drop, List.length_append]

theorem matchLoop_full (h0 : 0 ∉ k) (hq : q <+: k) (hfull : k <+: q ++ buf) :
    br.matchLoop buf [] (⟨k.drop q.length, pos⟩ :: later) =
      ⟨br.getValue pos, buf.drop (k.length - q.length), { br with current := [] }⟩ := by
  have heq := (strncmp_rest buf h0 hq).mpr (.inl hfull)
  have hlen : (k.drop q.length).length ≤ buf.length := by
    have := hfull.length_le
    rw [List.length_append] at this
    rw [List.length_drop]
    omega
  rw [BufferReplace.matchLoop]
  simp only [heq, ne_eq, not_true_eq_false, if_false]
  rw [if_pos (Nat.min_eq_right hlen), Nat.min_eq_right hlen, List.length_drop]
  rfl

/-- While some key can still follow, the loop drops the entries of the others and takes the whole
buffer. -/
theorem matchLoop_entries_more (h0 : ∀ kv ∈ kvs, 0 ∉ kv.1.1)
    (hfull : ∀ kv ∈ kvs, ¬ kv.1.1 <+: q ++ buf)
    (hsome : before ≠ [] ∨ entries (q ++ buf) kvs ≠ []) :
    br.matchLoop buf before (entries q kvs) =
      ⟨[], [], { br with current := before ++ entries (q ++ buf) kvs }⟩ := by
  induction kvs generalizing before with
  | nil =>
    rw [entries, entries, List.append_nil, BufferReplace.matchLoop]
  | cons kv kvs ih =>
    have h0' := h0 kv (.head _)
    have hfull' := hfull kv (.head _)
    replace ih := fun {before} => @ih before (fun kv hkv => h0 kv (.tail _ hkv))
      (fun kv hkv => hfull kv (.tail _ hkv))
    by_cases hq : q <+: kv.1.1
    · rw [entries, if_pos hq]
      by_cases hmore : q ++ buf <+: kv.1.1
      · rw [matchLoop_more h0' hq hfull' hmore, ih (.inl (by simp)), entries, if_pos hmore,
          List.append_assoc, List.singleton_append]
      · rw [entries, if_neg hmore] at hsome ⊢
        have hlater : before ≠ [] ∨ entries q kvs ≠ [] := by
          refine hsome.imp_right fun h => ?_
          obtain ⟨kv, hkv, h⟩ := entries_ne_nil.mp h
          exact entries_ne_nil.mpr ⟨kv, hkv, (List.prefix_append q buf).trans h⟩
        rw [matchLoop_fail h0' hq hfull' hmore hlater, ih hsome]
    · have hmore : ¬ q ++ buf <+: kv.1.1 := fun h => hq ((List.prefix_append q buf).trans h)
      rw [entries, if_neg hq]
      rw [entries, if_neg hmore] at hsome ⊢
      exact ih hsome

/-- When no key can follow, the last entry gives the parked text back. -/
theorem matchLoop_entries_fail (h0 : ∀ kv ∈ kvs, 0 ∉ kv.1.1)
    (hfull : ∀ kv ∈ kvs, ¬ kv.1.1 <+: q ++ buf) (hmore : ∀ kv ∈ kvs, ¬ q ++ buf <+: kv.1.1)
    (hkey : ∀ kv ∈ kvs, br.getKey kv.2 = kv.1.1) (hne : entries q kvs ≠ []) :
    br.matchLoop buf [] (entries q kvs) = ⟨q, buf, { br with current := [] }⟩ := by
  induction kvs with
  | nil => exact absurd rfl hne
  | cons kv kvs ih =>
    replace ih := ih (fun kv hkv => h0 kv (.tail _ hkv)) (fun kv hkv => hfull kv (.tail _ hkv))
      (fun kv hkv => hmore kv (.tail _ hkv)) (fun kv hkv => hkey kv (.tail _ hkv))
    by_cases hq : q <+: kv.1.1
    · rw [entries, if_pos hq]
      by_cases hlater : entries q kvs = []
      · rw [hlater]
        exact matchLoop_last (h0 kv (.head _)) hq (hfull kv (.head _)) (hmore kv (.head _))
          (hkey kv (.head _))
      · rw [matchLoop_fail (h0 kv (.head _)) hq (hfull kv (.head _)) (hmore kv (.head _))
          (.inr hlater), ih hlater]
    · rw [entries, if_neg hq] at hne ⊢
      exact ih hne

/-- When a key is complete and no other is possible, its value is given. -/
theorem matchLoop_entries_full (h0 : ∀ kv ∈ kvs, 0 ∉ kv.1.1) {kv : (Bytes × Bytes) × Nat}
    (hfind : kvs.find? (fun kv => decide (kv.1.1 <+: q ++ buf)) = some kv)
    (hq : ∀ kv ∈ kvs, kv.1.1 <+: q ++ buf → q <+: kv.1.1)
    (hmore : ∀ kv ∈ kvs, q ++ buf <+: kv.1.1 → kv.1.1 <+: q ++ buf) :
    br.matchLoop buf [] (entries q kvs) =
      ⟨br.getValue kv.2, buf.drop (kv.1.1.length - q.length), { br with current := [] }⟩ := by
  induction kvs with
  | nil => cases hfind
  | cons d kvs ih =>
    replace ih := ih (fun kv hkv => h0 kv (.tail _ hkv))
    by_cases hd : d.1.1 <+: q ++ buf
    · obtain rfl : d = kv := by simpa [List.find?_cons, hd] using hfind
      rw [entries, if_pos (hq d (.head _) hd)]
      exact matchLoop_full (h0 d (.head _)) (hq d (.head _) hd) hd
    · replace hfind : kvs.find? (fun kv => decide (kv.1.1 <+: q ++ buf)) = some kv := by
        simpa [List.find?_cons, hd] using hfind
      have htail := ih hfind (fun kv hkv => hq kv (.tail _ hkv))
        (fun kv hkv => hmore kv (.tail _ hkv))
      by_cases hqd : q <+: d.1.1
      · have hlater : entries q kvs ≠ [] := by
          have hkv := List.mem_of_find?_eq_some hfind
          have hp := List.find?_some
            (p := fun kv : (Bytes × Bytes) × Nat => decide (kv.1.1 <+: q ++ buf)) hfind
          exact entries_ne_nil.mpr ⟨kv, hkv, hq kv (.tail _ hkv) (of_decide_eq_true hp)⟩
        rw [entries, if_pos hqd, matchLoop_fail (h0 d (.head _)) hqd hd
          (fun h => hd (hmore d (.head _) h)) (.inr hlater), htail]
      · rw [entries, if_neg hqd, htail]

end MatchLoop

/-! ## A round of `put` -/

/-- What `replace` does with the buffer `buf` after the parked text `q`: it writes `out`, leaves
`buf'` of the buffer, and parks `q'`. -/
inductive Round (values : List (Bytes × Bytes)) : Bytes → Bytes → Bytes → Bytes → Bytes → Prop
  | plain {buf : Bytes} : findBraces buf = none → Round values [] buf buf [] []
  | brace {p r : Bytes} : findBraces (p ++ openBrace :: r) = some p.length →
      Round values [] (p ++ openBrace :: r) p r (if values = [] then [] else [openBrace])
  | full {q buf k v buf' : Bytes} : q ≠ [] → pick values (q ++ buf) = some (k, v) →
      q ++ buf = k ++ buf' → q.length < k.length → Round values q buf v buf' []
  | more {q buf : Bytes} : q ≠ [] → pick values (q ++ buf) = none → Open values (q ++ buf) →
      Round values q buf [] [] (q ++ buf)
  | fail {q buf : Bytes} : q ≠ [] → pick values (q ++ buf) = none → ¬ Open values (q ++ buf) →
      Round values q buf q buf []

theorem Braced.null (hv : Braced values) : ∀ kv ∈ values.zipIdx, 0 ∉ kv.1.1 := by
  intro kv hkv
  obtain ⟨key, hkey, heq⟩ := hv kv.1 (List.fst_mem_of_mem_zipIdx hkv)
  rw [heq]
  intro hm
  rcases List.mem_append.mp hm with hm | hm
  · rcases List.mem_append.mp hm with hm | hm
    · exact absurd hm (by decide)
    · exact hkey.null hm
  · exact absurd hm (by decide)

theorem getD_of_mem_zipIdx {kv : (Bytes × Bytes) × Nat} (h : kv ∈ values.zipIdx) :
    values.getD kv.2 ([], []) = kv.1 := by
  have hget : values[kv.2]? = some kv.1 := List.mem_zipIdx_iff_getElem?.mp h
  rw [List.getD_eq_getElem?_getD, hget]
  rfl

theorem find_zipIdx {k v : Bytes} (h : pick values s = some (k, v)) :
    ∃ kv, values.zipIdx.find? (fun kv => decide (kv.1.1 <+: s)) = some kv ∧ kv.1 = (k, v) := by
  rw [pick, ← List.zipIdx_map_fst 0 values, List.find?_map] at h
  obtain ⟨kv, hkv, heq⟩ := Option.map_eq_some_iff.mp h
  exact ⟨kv, hkv, heq⟩

/-- A key that begins the parked text with what follows is longer than the parked text. -/
theorem Valid.isPrefix (h : Valid values q) (he : e ∈ values) (hp : e.1 <+: q ++ buf) :
    q <+: e.1 ∧ (q ≠ [] → q.length < e.1.length) := by
  rcases h with rfl | ⟨-, -, hno⟩
  · exact ⟨List.nil_prefix, fun h => absurd rfl h⟩
  · have hlt : q.length < e.1.length := by
      by_contra hle
      exact pick_eq_none.mp hno e he
        (List.prefix_of_prefix_length_le hp (List.prefix_append q buf) (by omega))
    exact ⟨List.prefix_of_prefix_length_le (List.prefix_append q buf) hp (Nat.le_of_lt hlt),
      fun _ => hlt⟩

/-- `match`, where something is parked. -/
theorem matchCurrent_round (hv : Braced values) (hq : Valid values q) (hne : q ≠ []) (buf : Bytes) :
    ∃ out buf' q', (BufferReplace.mk values (current values q)).matchCurrent buf =
        ⟨out, buf', ⟨values, current values q'⟩⟩ ∧
      Round values q buf out buf' q' ∧ Valid values q' := by
  have hopen : Open values q := by
    rcases hq with rfl | ⟨-, hopen, -⟩
    · exact absurd rfl hne
    · exact hopen
  have hcur : current values q = entries q values.zipIdx := if_neg hne
  have hentries : entries q values.zipIdx ≠ [] := hcur ▸ (current_ne_nil hne).mpr hopen
  have hmatch : (BufferReplace.mk values (current values q)).matchCurrent buf =
      (BufferReplace.mk values (current values q)).matchLoop buf [] (entries q values.zipIdx) := by
    rw [BufferReplace.matchCurrent]
    show (if (current values q).isEmpty = true then _ else _) = _
    rw [if_neg (by simpa [hcur] using hentries), hcur]
  rw [hmatch]
  cases hp : pick values (q ++ buf) with
  | some kv =>
    obtain ⟨k, v⟩ := kv
    obtain ⟨kv, hfind, hkv⟩ := find_zipIdx hp
    have hmem := pick_mem hp
    have hk : k <+: q ++ buf := pick_isPrefix hp
    have hmore : ∀ kv ∈ values.zipIdx, q ++ buf <+: kv.1.1 → kv.1.1 <+: q ++ buf := by
      intro d hd h
      rwa [← eq_of_isPrefix hv hmem (List.fst_mem_of_mem_zipIdx hd) (hk.trans h)]
    rw [matchLoop_entries_full hv.null hfind
      (fun d hd h => (hq.isPrefix (List.fst_mem_of_mem_zipIdx hd) h).1) hmore, hkv,
      BufferReplace.getValue]
    refine ⟨v, buf.drop (k.length - q.length), [], ?_, .full hne hp ?_ ?_, .inl rfl⟩
    · show BufferReplace.Result.mk (values.getD kv.2 ([], [])).2 _ _ = _
      rw [getD_of_mem_zipIdx (List.mem_of_find?_eq_some hfind), hkv]
      rfl
    · obtain ⟨r, hr⟩ := (hq.isPrefix hmem hk).1
      obtain ⟨u, hu⟩ := hk
      obtain rfl : q ++ r = k := hr
      obtain rfl : r ++ u = buf := List.append_cancel_left (by rw [← hu, List.append_assoc])
      simp
    · exact (hq.isPrefix hmem (pick_isPrefix hp)).2 hne
  | none =>
    have hfull : ∀ kv ∈ values.zipIdx, ¬ kv.1.1 <+: q ++ buf := fun kv hkv =>
      pick_eq_none.mp hp kv.1 (List.fst_mem_of_mem_zipIdx hkv)
    have hne' : q ++ buf ≠ [] := by simp [hne]
    by_cases hmore : Open values (q ++ buf)
    · have hsome := (current_ne_nil hne').mpr hmore
      rw [current, if_neg hne'] at hsome
      rw [matchLoop_entries_more hv.null hfull (.inr hsome)]
      refine ⟨[], [], q ++ buf, ?_, .more hne hp hmore, .inr ⟨hne', hmore, hp⟩⟩
      have hcur' : current values (q ++ buf) = entries (q ++ buf) values.zipIdx := if_neg hne'
      rw [List.nil_append, hcur']
    · have hfail : ∀ kv ∈ values.zipIdx, ¬ q ++ buf <+: kv.1.1 := fun kv hkv h =>
        hmore ⟨kv.1, List.fst_mem_of_mem_zipIdx hkv, h⟩
      rw [matchLoop_entries_fail hv.null hfull hfail
        (fun kv hkv => congrArg Prod.fst (getD_of_mem_zipIdx hkv)) hentries]
      exact ⟨q, buf, [], rfl, .fail hne hp hmore, .inl rfl⟩

/-- The entries that an open brace makes. -/
theorem entries_openBrace (hv : Braced values) :
    entries [openBrace] values.zipIdx =
      values.zipIdx.map fun kv => { rest := kv.1.1.drop 1, pos := kv.2 } := by
  have hkeys : ∀ kv ∈ values.zipIdx, [openBrace] <+: kv.1.1 := by
    intro kv hkv
    obtain ⟨key, -, heq⟩ := hv kv.1 (List.fst_mem_of_mem_zipIdx hkv)
    rw [heq, braced_eq]
    exact ⟨_, rfl⟩
  generalize values.zipIdx = kvs at hkeys ⊢
  induction kvs with
  | nil => rfl
  | cons kv kvs ih =>
    rw [entries, if_pos (hkeys kv (.head _)), ih fun kv hkv => hkeys kv (.tail _ hkv)]
    rfl

/-- What `replace` does is a round. -/
theorem replace_round (hv : Braced values) (hq : Valid values q) (hb : buf ≠ []) :
    ∃ out buf' q', (BufferReplace.mk values (current values q)).replace buf =
        ⟨out, buf', ⟨values, current values q'⟩⟩ ∧
      Round values q buf out buf' q' ∧ Valid values q' := by
  have hempty : buf.isEmpty = false := by simpa using hb
  by_cases hne : q = []
  · subst hne
    have hcons : (BufferReplace.mk values (current values [])).isConsuming = false := rfl
    rw [BufferReplace.replace, hempty, hcons]
    cases hf : findBraces buf with
    | none => exact ⟨buf, [], [], rfl, .plain hf, .inl rfl⟩
    | some i =>
      obtain ⟨p, r, rfl, rfl, -, -⟩ := findBraces_some hf
      have hdrop : (p ++ openBrace :: r).drop (p.length + 1) = r := by simp
      refine ⟨p, r, if values = [] then [] else [openBrace], ?_, .brace hf, ?_⟩
      · simp only [Bool.false_eq_true, if_false, List.take_left, hdrop, current, if_true,
          List.nil_append]
        by_cases hvalues : values = []
        · simp [hvalues]
        · simp [hvalues, entries_openBrace hv]
      · split
        · exact .inl rfl
        · rename_i hvalues
          obtain ⟨e, he⟩ := List.exists_mem_of_ne_nil _ hvalues
          obtain ⟨key, -, heq⟩ := hv e he
          refine .inr ⟨by simp, ⟨e, he, ?_⟩, Http.pick_none hv (.inr (by simp))⟩
          rw [heq, braced_eq]
          exact ⟨_, rfl⟩
  · have hopen : Open values q := by
      rcases hq with rfl | ⟨-, hopen, -⟩
      · exact absurd rfl hne
      · exact hopen
    have hcons : (BufferReplace.mk values (current values q)).isConsuming = true := by
      simpa [BufferReplace.isConsuming] using (current_ne_nil hne).mpr hopen
    rw [BufferReplace.replace, hempty, hcons]
    exact matchCurrent_round hv hq hne buf

end Seastar.Http
