import Seastar.Core.SmallPool

/-!
The counter `_pages_in_use` of `small_pool`: it grows by the size the pool asks for and shrinks by
the size the page allocator has recorded for the span, which `allocate_large_and_trim` rounds up to
a power of two.
-/

namespace Seastar

namespace SmallPool

/-! ## The sizes of the page allocator -/

/-- The loop of `allocate_large_and_trim`: a free span of `2 ^ k` pages is halved as long as there is
room for `nPages`. -/
def trimmedSize (nPages : Nat) : Nat → Nat
  | 0 => 1
  | k + 1 => if 2 * nPages ≤ 2 ^ (k + 1) then trimmedSize nPages k else 2 ^ (k + 1)

theorem le_trimmedSize {nPages k : Nat} (h : nPages ≤ 2 ^ k) : nPages ≤ trimmedSize nPages k := by
  induction k with
  | zero => exact h
  | succ k ih =>
    rw [trimmedSize]
    split
    · rename_i hle
      rw [Nat.pow_succ'] at hle
      exact ih (Nat.le_of_mul_le_mul_left hle (by decide))
    · exact h

theorem trimmedSize_lt {nPages k : Nat} (h : 0 < nPages) : trimmedSize nPages k < 2 * nPages := by
  induction k with
  | zero =>
    rw [trimmedSize]
    omega
  | succ k ih =>
    rw [trimmedSize]
    split
    · exact ih
    · omega

theorem trimmedSize_pow (nPages k : Nat) : ∃ j, trimmedSize nPages k = 2 ^ j := by
  induction k with
  | zero => exact ⟨0, rfl⟩
  | succ k ih =>
    rw [trimmedSize]
    split
    · exact ih
    · exact ⟨k + 1, rfl⟩

/-- Nothing is rounded up when the size is a power of two. -/
theorem trimmedSize_eq {nPages k : Nat} (hpos : 0 < nPages) (h : nPages ≤ 2 ^ k) :
    trimmedSize nPages k = nPages ↔ ∃ j, nPages = 2 ^ j := by
  constructor
  · intro heq
    obtain ⟨j, hj⟩ := trimmedSize_pow nPages k
    exact ⟨j, heq.symm.trans hj⟩
  · rintro ⟨j, hj⟩
    obtain ⟨i, hi⟩ := trimmedSize_pow nPages k
    have hle := le_trimmedSize h
    have hlt := trimmedSize_lt (k := k) hpos
    rw [hi, hj, ← Nat.pow_succ'] at hlt
    rw [hi, hj] at hle ⊢
    have hij : i < j + 1 := (Nat.pow_lt_pow_iff_right (by decide)).mp hlt
    have hji : j ≤ i := (Nat.pow_le_pow_iff_right (by decide)).mp hle
    rw [Nat.le_antisymm hji (Nat.lt_succ_iff.mp hij)]

/-- The answers of a page allocator with `nrPages` pages. -/
def FromPages (nrPages : UInt32) (z : Sizes) : Action → Prop
  | .refill answer => ∀ sp ∈ answer.span z,
    (∃ k, sp.pages ≤ 2 ^ k ∧ sp.size = trimmedSize sp.pages k) ∧ sp.start + sp.size ≤ nrPages.toNat
  | _ => True

/-- The span an action gets for the pool. -/
def obtained (s : SmallPool) : Action → Option Span
  | .refill answer =>
    if s.refills = 0 then none
    else if s.freeCount < s.sizes.goal then answer.span s.sizes
    else none
  | _ => none

/-- The pages of the spans that the pool owns. -/
def ownedPages (s : SmallPool) : Nat := (s.spans.map Span.size).sum

/-- How far the counter is behind. -/
def missing (s : SmallPool) : UInt32 := .ofNat s.ownedPages - s.pagesInUse

/-- A span the pool gets is what the page allocator answers. -/
theorem FromPages.of_obtained {nrPages : UInt32} {s : SmallPool} {a : Action} {sp : Span}
    (h : FromPages nrPages s.sizes a) (hsp : s.obtained a = some sp) :
    0 < sp.pages ∧ (∃ k, sp.pages ≤ 2 ^ k ∧ sp.size = trimmedSize sp.pages k) ∧
      sp.start + sp.size ≤ nrPages.toNat := by
  cases a with
  | refill answer =>
    rw [obtained] at hsp
    split at hsp
    · cases hsp
    · split at hsp
      · exact ⟨(Answer.span_pages hsp).1, h sp hsp⟩
      · cases hsp
  | allocate => cases hsp
  | deallocate obj => cases hsp
  | other p page => cases hsp

/-! ## The steps -/

variable {s : SmallPool} {out : List Nat} {sp : Span} {obj : Nat}

theorem missing_congr {s s' : SmallPool} (hspans : s'.spans = s.spans)
    (hpages : s'.pagesInUse = s.pagesInUse) : s'.missing = s.missing := by
  rw [missing, missing, ownedPages, ownedPages, hspans, hpages]

theorem InvOut.nodup_spans (h : InvOut s out) : s.spans.Nodup := by
  refine h.apart.imp_of_mem ?_
  intro sp sp' hsp _ hap heq
  have hfits := (h.spans sp hsp).fits
  rw [← heq] at hap
  obtain hap | hap := hap
  · omega
  · omega

/-- A span that is given back is the only one that leaves. -/
theorem InvOut.perm_filter (h : InvOut s out) (hsp : sp ∈ s.spans) :
    s.spans.Perm (sp :: s.spans.filter (·.start ≠ sp.start)) := by
  have hnot : sp ∉ s.spans.filter (·.start ≠ sp.start) := by simp
  rw [List.perm_ext_iff_of_nodup h.nodup_spans
    (List.nodup_cons.mpr ⟨hnot, h.nodup_spans.filter _⟩)]
  intro sp'
  rw [List.mem_cons, List.mem_filter, decide_eq_true_iff]
  constructor
  · intro hsp'
    by_cases heq : sp' = sp
    · exact Or.inl heq
    · exact Or.inr ⟨hsp', h.start_ne hsp hsp' heq⟩
  · rintro (rfl | hsp')
    · exact hsp
    · exact hsp'.1

theorem missing_trimObject (h : InvOut s (obj :: out)) :
    (s.trimObject obj).missing = s.missing := by
  obtain ⟨sp, hsp, hobj⟩ := h.carved obj List.mem_cons_self
  have hok := h.spans sp hsp
  have howned : s.ownedPages = sp.size + ((s.spans.filter (·.start ≠ sp.start)).map Span.size).sum := by
    rw [ownedPages, ((h.perm_filter hsp).map Span.size).sum_eq]
    rfl
  rw [trimObject_eq (hok.toPage_sub hobj)]
  split
  · rw [missing, missing, howned, hok.size, UInt32.ofNat_add]
    simp only [ownedPages]
    grind
  · rfl

theorem missing_trimFreeList {k : Nat} (h : Inv s) : (trimFreeList k s).missing = s.missing := by
  induction k generalizing s with
  | zero => rfl
  | succ k ih =>
    rw [trimFreeList]
    cases hfree : s.free with
    | nil => rfl
    | cons obj free =>
      dsimp only
      split
      · rw [ih (h.trimRound hfree), missing_trimObject (h.takeFree hfree)]
        exact missing_congr rfl rfl
      · rfl

theorem missing_drainSpans {k : Nat} : (drainSpans k s).missing = s.missing := by
  induction k generalizing s with
  | zero => rfl
  | succ k ih =>
    rw [drainSpans]
    cases hlist : s.spanList with
    | nil => rfl
    | cons span rest =>
      dsimp only
      split
      · rw [ih, takeObject_foldl]
        exact missing_congr rfl rfl
      · rfl

theorem missing_popFree : s.popFree.2.missing = s.missing := by
  unfold popFree
  split
  · rfl
  · exact missing_congr rfl rfl

/-- A new span puts the counter behind by what was rounded up. -/
theorem missing_addSpan (hpos : 0 < sp.pages) :
    (s.addSpan sp).missing = s.missing + (.ofNat sp.size - .ofNat sp.pages) := by
  rw [addSpan_eq hpos, missing, missing, ownedPages, ownedPages, List.map_cons, List.sum_cons,
    UInt32.ofNat_add]
  grind

/-- What an action adds to the pages the counter misses. -/
def rounding (s : SmallPool) (a : Action) : UInt32 :=
  match s.obtained a with
  | some sp => .ofNat sp.size - .ofNat sp.pages
  | none => 0

theorem missing_refill {answer : Answer} (hrefills : s.refills ≠ 0) :
    (s.refill answer).2.missing = s.missing + s.rounding (.refill answer) := by
  rw [rounding, obtained, if_neg hrefills]
  unfold refill
  split
  · cases hspan : answer.span s.sizes with
    | none =>
      rw [missing_popFree, UInt32.add_zero]
      rfl
    | some sp => exact missing_addSpan (Answer.span_pages hspan).1
  · rw [missing_popFree, UInt32.add_zero]
    rfl

theorem missing_step {a : Action} (h : Inv s) (hvalid : Valid s a) :
    (s.step a).missing = s.missing + s.rounding a := by
  cases a with
  | allocate =>
    refine Eq.trans ?_ (UInt32.add_zero _).symm
    unfold step allocate
    dsimp only
    split
    · exact (missing_congr rfl rfl).trans missing_drainSpans
    · exact missing_popFree
  | refill answer =>
    unfold step
    dsimp only
    split
    · rename_i hzero
      rw [rounding, obtained, if_pos hzero, UInt32.add_zero]
    · rename_i hne
      exact missing_refill hne
  | deallocate obj =>
    refine Eq.trans ?_ (UInt32.add_zero _).symm
    unfold step deallocate
    dsimp only
    split
    · exact (missing_trimFreeList (h.giveBack hvalid)).trans (missing_congr rfl rfl)
    · exact missing_congr rfl rfl
  | other p page => exact (missing_congr rfl rfl).trans (UInt32.add_zero _).symm

/-! ## The spans are in the memory -/

theorem spans_trimFreeList {k : Nat} : (trimFreeList k s).spans ⊆ s.spans := by
  induction k generalizing s with
  | zero => exact List.Subset.refl _
  | succ k ih =>
    rw [trimFreeList]
    split
    · exact List.Subset.refl _
    · split
      · refine List.Subset.trans ih ?_
        rw [trimObject_eq rfl]
        split
        · exact List.filter_subset_self _
        · exact List.Subset.refl _
      · exact List.Subset.refl _

theorem spans_drainSpans {k : Nat} : (drainSpans k s).spans = s.spans := by
  induction k generalizing s with
  | zero => rfl
  | succ k ih =>
    rw [drainSpans]
    split
    · rfl
    · split
      · rw [ih, takeObject_foldl]
      · rfl

theorem spans_popFree : s.popFree.2.spans = s.spans := by
  unfold popFree
  split
  · rfl
  · rfl

/-- The spans after an action are spans from before, and the one it got. -/
theorem spans_step {a : Action} (hsp : sp ∈ (s.step a).spans) : sp ∈ s.spans ∨ sp ∈ s.obtained a := by
  cases a with
  | allocate =>
    refine Or.inl ?_
    unfold step allocate at hsp
    dsimp only at hsp
    split at hsp
    · rwa [← spans_drainSpans]
    · rwa [← spans_popFree]
  | refill answer =>
    unfold step at hsp
    dsimp only at hsp
    rw [obtained]
    split at hsp
    · exact Or.inl hsp
    · rename_i hne
      rw [if_neg hne]
      unfold refill at hsp
      split at hsp
      · rename_i hlt
        rw [if_pos hlt]
        split at hsp
        · rename_i sp' hspan
          rw [addSpan_eq (Answer.span_pages hspan).1, List.mem_cons] at hsp
          obtain rfl | hsp := hsp
          · exact Or.inr hspan
          · exact Or.inl hsp
        · rw [spans_popFree] at hsp
          exact Or.inl hsp
      · rw [spans_popFree] at hsp
        exact Or.inl hsp
  | deallocate obj =>
    refine Or.inl ?_
    unfold step deallocate at hsp
    dsimp only at hsp
    split at hsp
    · have hmem := spans_trimFreeList hsp
      exact hmem
    · exact hsp
  | other p page => exact Or.inl hsp

/-- Spans that are apart are not larger than the memory they are in. -/
theorem InvOut.ownedPages_le (h : InvOut s out) {nrPages : Nat}
    (hmem : ∀ sp ∈ s.spans, sp.start + sp.size ≤ nrPages) : s.ownedPages ≤ nrPages := by
  have hnodup : (s.spans.flatMap fun sp => List.range' sp.start sp.size).Nodup := by
    rw [List.nodup_flatMap]
    refine ⟨fun sp _ => List.nodup_range', h.apart.imp ?_⟩
    intro sp sp' hap p hp hp'
    rw [List.mem_range'_1] at hp hp'
    obtain hap | hap := hap
    · omega
    · omega
  have hsub : (s.spans.flatMap fun sp => List.range' sp.start sp.size) ⊆ List.range nrPages := by
    intro p hp
    obtain ⟨sp, hsp, hp⟩ := List.mem_flatMap.mp hp
    rw [List.mem_range'_1] at hp
    exact List.mem_range.mpr (Nat.lt_of_lt_of_le hp.2 (hmem sp hsp))
  have hlen := (List.subperm_of_subset hnodup hsub).length_le
  simpa [List.length_flatMap, ownedPages] using hlen

/-! ## The runs -/

/-- The spans the pool gets in the run have the sizes it asked for: these are powers of two. -/
def AsksForPowers : SmallPool → List Action → Prop
  | _, [] => True
  | s, a :: as => (∀ sp ∈ s.obtained a, ∃ j, sp.pages = 2 ^ j) ∧ AsksForPowers (s.step a) as

/-- The counter is right when nothing is missing. -/
theorem pagesInUse_eq_iff {nrPages : UInt32} (h : s.ownedPages ≤ nrPages.toNat) :
    s.pagesInUse.toNat = s.ownedPages ↔ s.missing = 0 := by
  have hlt := Nat.lt_of_le_of_lt h nrPages.toNat_lt
  rw [missing]
  constructor
  · intro heq
    rw [← heq, UInt32.ofNat_toNat, UInt32.sub_self]
  · intro hzero
    have heq : UInt32.ofNat s.ownedPages = s.pagesInUse := by grind
    rw [← heq, UInt32.toNat_ofNat_of_lt' hlt]

theorem FromPages.rounding_eq_zero {nrPages : UInt32} {a : Action}
    (hpages : FromPages nrPages s.sizes a) :
    s.rounding a = 0 ↔ ∀ sp ∈ s.obtained a, ∃ j, sp.pages = 2 ^ j := by
  rw [rounding]
  cases hobtained : s.obtained a with
  | none =>
    refine ⟨fun _ sp hsp => ?_, fun _ => rfl⟩
    cases hsp
  | some sp =>
    obtain ⟨hpos, ⟨k, hk, hsize⟩, hmem⟩ := hpages.of_obtained hobtained
    have hle : sp.pages ≤ sp.size := hsize ▸ le_trimmedSize hk
    have hlt : sp.size < 2 ^ 32 :=
      Nat.lt_of_le_of_lt (Nat.le_trans (Nat.le_add_left _ _) hmem) nrPages.toNat_lt
    have hpow := trimmedSize_eq hpos hk
    rw [← hsize] at hpow
    constructor
    · intro hzero sp' hsp'
      obtain rfl := Option.some.inj hsp'
      refine hpow.mp ?_
      have heq : UInt32.ofNat sp.size = UInt32.ofNat sp.pages := by grind
      have htoNat := congrArg UInt32.toNat heq
      rwa [UInt32.toNat_ofNat_of_lt' hlt, UInt32.toNat_ofNat_of_lt' (Nat.lt_of_le_of_lt hle hlt)]
        at htoNat
    · intro hall
      show UInt32.ofNat sp.size - UInt32.ofNat sp.pages = 0
      rw [hpow.mpr (hall sp rfl), UInt32.sub_self]

/-- The page allocator answers every action of the run. -/
def FromPagesRun (nrPages : UInt32) : SmallPool → List Action → Prop
  | _, [] => True
  | s, a :: as => FromPages nrPages s.sizes a ∧ FromPagesRun nrPages (s.step a) as

theorem counts_pages {nrPages : UInt32} {as : List Action} (h : Inv s) (hvalid : ValidRun s as)
    (hpages : FromPagesRun nrPages s as)
    (hmem : ∀ sp ∈ s.spans, sp.start + sp.size ≤ nrPages.toNat) (hmissing : s.missing = 0) :
    (∀ pre, pre <+: as → (s.run pre).pagesInUse.toNat = (s.run pre).ownedPages) ↔
      AsksForPowers s as := by
  induction as generalizing s with
  | nil =>
    refine ⟨fun _ => trivial, fun _ pre hpre => ?_⟩
    obtain rfl := List.prefix_nil.mp hpre
    exact (pagesInUse_eq_iff (h.ownedPages_le hmem)).mpr hmissing
  | cons a as ih =>
    have h' := step_inv h hvalid.1
    have hmem' : ∀ sp ∈ (s.step a).spans, sp.start + sp.size ≤ nrPages.toNat := by
      intro sp hsp
      obtain hsp | hsp := spans_step hsp
      · exact hmem sp hsp
      · exact (hpages.1.of_obtained hsp).2.2
    have hmissing' := missing_step h hvalid.1
    rw [hmissing, UInt32.zero_add] at hmissing'
    have hstep := hpages.1.rounding_eq_zero
    rw [← hmissing'] at hstep
    have hcount := pagesInUse_eq_iff (h'.ownedPages_le hmem')
    constructor
    · intro hall
      have hzero := hcount.mp (hall [a] (List.cons_prefix_cons.mpr ⟨rfl, List.nil_prefix⟩))
      refine ⟨hstep.mp hzero, (ih h' hvalid.2 hpages.2 hmem' hzero).mp ?_⟩
      intro pre hpre
      exact hall (a :: pre) (List.cons_prefix_cons.mpr ⟨rfl, hpre⟩)
    · rintro ⟨hpowers, hrest⟩ pre hpre
      cases pre with
      | nil => exact (pagesInUse_eq_iff (h.ownedPages_le hmem)).mpr hmissing
      | cons b pre =>
        obtain ⟨rfl, htail⟩ := List.cons_prefix_cons.mp hpre
        exact (ih h' hvalid.2 hpages.2 hmem' (hstep.mpr hpowers)).mpr hrest pre htail

/-- All along a run the counter is the number of pages the pool owns exactly when every span the
pool has got in the run was asked for with a power of two. -/
theorem run_counts_pages (z : Sizes) (pages : Nat → Page) (nrPages : UInt32) (as : List Action)
    (hvalid : ValidRun (init z pages) as) (hpages : FromPagesRun nrPages (init z pages) as) :
    (∀ pre, pre <+: as →
        ((init z pages).run pre).pagesInUse.toNat = ((init z pages).run pre).ownedPages) ↔
      AsksForPowers (init z pages) as :=
  counts_pages (Inv.init z pages) hvalid hpages (fun _ hsp => absurd hsp List.not_mem_nil)
    (UInt32.sub_self 0)

/-- A pool of 1024 bytes asks for one page, and the counter is right. -/
theorem run_counts_one_page :
    let as : List Action := [.allocate, .refill (.preferred 16 1)]
    let s := init (Sizes.new 1024 (by decide) (by decide)) fun _ => {}
    ∀ pre, pre <+: as → (s.run pre).pagesInUse.toNat = (s.run pre).ownedPages := by
  intro as s
  refine (run_counts_pages _ _ 1024 as (by decide +kernel) ?_).mpr ?_
  · refine ⟨trivial, ?_, trivial⟩
    intro sp hsp
    obtain rfl := Option.some.inj hsp
    exact ⟨⟨0, by decide +kernel⟩, by decide⟩
  · refine ⟨?_, ?_, trivial⟩
    · intro sp hsp
      cases hsp
    · intro sp hsp
      obtain rfl := Option.some.inj hsp
      exact ⟨0, by decide +kernel⟩

/-- A pool of 1536 bytes asks for three pages and gets four, of which it counts three. -/
theorem run_miscounts_three_pages :
    let as : List Action := [.allocate, .refill (.preferred 16 4)]
    let s := init (Sizes.new 1536 (by decide) (by decide)) fun _ => {}
    ValidRun s as ∧ FromPagesRun 1024 s as ∧
      (s.run as).pagesInUse.toNat = 3 ∧ (s.run as).ownedPages = 4 := by
  intro as s
  refine ⟨by decide +kernel, ⟨trivial, ?_, trivial⟩, by decide +kernel⟩
  intro sp hsp
  obtain rfl := Option.some.inj hsp
  exact ⟨⟨6, by decide +kernel⟩, by decide⟩

end SmallPool

end Seastar
