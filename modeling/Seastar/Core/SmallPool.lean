import Mathlib

/-!
`small_pool` of `core/memory.cc`. The objects of a pool are carved from spans of
pages; an object is with the caller, in the free list of the pool, or in that of
its span. An object is its address, counted from the beginning of the memory; the
lists that the code links through the objects and the pages are lists here.

A call of the page allocator may run reclaimers, which use the pool in turn. So a
call of `allocate` that needs more objects is in several actions, between which
others may come; the state has the number of these calls that are under way.
-/

namespace Seastar

/-- `page_size`. -/
def pageSize : Nat := 4096

/-- What the constructor of `small_pool` derives from the size of the objects. A free object has room
for a `free_object`, and the objects of a span are counted with 16 bits. -/
structure SmallPool.Sizes where
  objectSize : Nat
  preferred : Nat
  fallback : Nat
  minFree : Nat
  maxFree : Nat
  objectSize_ge : 8 ≤ objectSize
  preferred_ge : objectSize ≤ preferred * pageSize
  fallback_ge : objectSize ≤ fallback * pageSize
  preferred_few : preferred * pageSize / objectSize < 2 ^ 16
  fallback_few : fallback * pageSize / objectSize < 2 ^ 16

/-- A span of the pool: its first page, the pages objects are carved from, and the pages it has. -/
structure SmallPool.Span where
  start : Nat
  pages : Nat
  size : Nat
  deriving DecidableEq, Repr

/-- The fields of `page` a pool uses. -/
structure SmallPool.Page where
  offsetInSpan : Nat := 0
  nrSmallAlloc : UInt16 := 0
  spanSize : Nat := 0
  /-- the page belongs to the pool -/
  pool : Bool := false
  freelist : List Nat := []
  deriving DecidableEq, Repr

/-- A call of `free_span` for a span of the pool, with the free list of the span. -/
structure SmallPool.Returned where
  span : Option SmallPool.Span
  start : Nat
  size : Nat
  freelist : List Nat
  deriving DecidableEq, Repr

/-- `class small_pool`, with the pages. -/
structure SmallPool where
  sizes : SmallPool.Sizes
  free : List Nat := []
  freeCount : Nat := 0
  spanList : List Nat := []
  pagesInUse : UInt32 := 0
  pages : Nat → SmallPool.Page
  /-- calls of `allocate` in the second loop of `add_more_objects` -/
  refills : Nat := 0
  /-- history: the spans of the pool, the objects with the caller, and the spans given back -/
  spans : List SmallPool.Span := []
  live : List Nat := []
  returned : List SmallPool.Returned := []

namespace SmallPool

/-! ## The constructor -/

/-- A loop that counts up until a condition holds. -/
def growUntil (done : Nat → Bool) : Nat → Nat → Nat
  | 0, n => n
  | k + 1, n => if done n then n else growUntil done k (n + 1)

/-- `waste() > 0.05`. -/
def wasteful (objectSize spanSize : Nat) : Bool :=
  20 * (spanSize * pageSize % objectSize) > spanSize * pageSize

/-- The fallback span size is large enough for an object. -/
def fallbackDone (objectSize spanSize : Nat) : Bool := objectSize ≤ spanSize * pageSize

/-- The preferred span size wastes little, and is large enough for four objects. -/
def preferredDone (objectSize spanSize : Nat) : Bool :=
  objectSize ≤ spanSize * pageSize && !(spanSize < 32 && wasteful objectSize spanSize) &&
    spanSize * pageSize / objectSize ≥ 4

/-- `_span_sizes.fallback`. -/
def fallbackSize (objectSize : Nat) : Nat := growUntil (fallbackDone objectSize) 31 1

/-- `_span_sizes.preferred`. -/
def preferredSize (objectSize : Nat) : Nat := growUntil (preferredDone objectSize) 31 1

theorem growUntil_spec {done : Nat → Bool} {k n : Nat} (h : done (n + k) = true) :
    done (growUntil done k n) = true ∧ growUntil done k n ≤ n + k := by
  induction k generalizing n with
  | zero => exact ⟨h, Nat.le_refl _⟩
  | succ k ih =>
    rw [growUntil]
    split
    · rename_i hn
      exact ⟨hn, Nat.le_add_right _ _⟩
    · have hk : n + 1 + k = n + (k + 1) := by omega
      rw [← hk] at h ⊢
      exact ih h

theorem few_of_le {objectSize n : Nat} (h : 8 ≤ objectSize) (hn : n ≤ 32) :
    n * pageSize / objectSize < 2 ^ 16 := by
  have hle : n * pageSize ≤ 32 * pageSize := Nat.mul_le_mul_right pageSize hn
  have hdiv : n * pageSize / objectSize ≤ 32 * pageSize / 8 := Nat.div_le_div hle h (by decide)
  exact Nat.lt_of_le_of_lt hdiv (by decide)

/-- The constructor, for the object sizes of `small_pool_array` that a request can have. -/
def Sizes.new (objectSize : Nat) (hmin : 8 ≤ objectSize) (hmax : objectSize ≤ 4 * pageSize) :
    Sizes :=
  have hbig : objectSize ≤ (1 + 31) * pageSize := Nat.le_trans hmax (by decide)
  have hfour : 4 ≤ (1 + 31) * pageSize / objectSize :=
    (Nat.le_div_iff_mul_le (by omega)).mpr (Nat.le_trans (Nat.mul_le_mul_left 4 hmax) (by decide))
  have hf : fallbackDone objectSize (fallbackSize objectSize) = true ∧
      fallbackSize objectSize ≤ 1 + 31 :=
    growUntil_spec (decide_eq_true hbig)
  have hp : preferredDone objectSize (preferredSize objectSize) = true ∧
      preferredSize objectSize ≤ 1 + 31 :=
    growUntil_spec (by simpa [preferredDone] using ⟨hbig, hfour⟩)
  { objectSize
    preferred := preferredSize objectSize
    fallback := fallbackSize objectSize
    maxFree := max 100 (preferredSize objectSize * pageSize * 2 / objectSize)
    minFree := max 100 (preferredSize objectSize * pageSize * 2 / objectSize) / 2
    objectSize_ge := hmin
    preferred_ge := by
      have h := hp.1
      simp only [preferredDone, Bool.and_eq_true, decide_eq_true_eq] at h
      exact h.1.1
    fallback_ge := of_decide_eq_true hf.1
    preferred_few := few_of_le hmin hp.2
    fallback_few := few_of_le hmin hf.2 }

/-- The goal of the refills and of the trims. -/
def Sizes.goal (z : Sizes) : Nat := (z.minFree + z.maxFree) / 2

/-- The objects of a span. -/
def Sizes.objects (z : Sizes) (sp : Span) : List Nat :=
  (List.range (sp.pages * pageSize / z.objectSize)).map fun k =>
    sp.start * pageSize + k * z.objectSize

/-! ## The operations -/

/-- `to_page`. -/
def toPage (obj : Nat) : Nat := obj / pageSize

/-- A page is changed. -/
def setPage (p : Nat) (f : Page → Page) (s : SmallPool) : SmallPool :=
  { s with pages := Function.update s.pages p (f (s.pages p)) }

/-- `allocate`, with the objects there are. -/
def popFree (s : SmallPool) : Option Nat × SmallPool :=
  match s.free with
  | [] => (none, s)
  | obj :: free => (some obj, { s with
      free
      freeCount := s.freeCount - 1
      live := obj :: s.live })

/-- A round of the inner loop over the free list of a span, in `add_more_objects`. -/
def takeObject (span : Nat) (s : SmallPool) (obj : Nat) : SmallPool :=
  { s with
    free := obj :: s.free
    freeCount := s.freeCount + 1 }.setPage span fun page =>
    { page with
      freelist := page.freelist.tail
      nrSmallAlloc := page.nrSmallAlloc + 1 }

/-- The first loop of `add_more_objects`, for as many rounds as there are spans. -/
def drainSpans : Nat → SmallPool → SmallPool
  | 0, s => s
  | k + 1, s =>
    match s.spanList with
    | [] => s
    | span :: spanList =>
      if s.freeCount < s.sizes.goal then
        drainSpans k ((s.pages span).freelist.foldl (takeObject span) { s with spanList })
      else s

/-- A page of a new span. -/
def claimPage (start : Nat) (s : SmallPool) (i : Nat) : SmallPool :=
  s.setPage (start + i) fun page =>
    { page with
      offsetInSpan := i
      pool := true }

/-- A round of the inner loop that carves the objects of a new span. -/
def carveObject (span : Nat) (s : SmallPool) (obj : Nat) : SmallPool :=
  { s with
    free := obj :: s.free
    freeCount := s.freeCount + 1 }.setPage span fun page =>
    { page with nrSmallAlloc := page.nrSmallAlloc + 1 }

/-- A round of the second loop of `add_more_objects` that has got a span. -/
def addSpan (sp : Span) (s : SmallPool) : SmallPool :=
  -- the page allocator sets the size of the span
  let s := s.setPage sp.start fun page => { page with spanSize := sp.size }
  let s := { s with pagesInUse := s.pagesInUse + .ofNat sp.pages }
  let s := (List.range sp.pages).foldl (claimPage sp.start) s
  let s := s.setPage sp.start fun page =>
    { page with
      nrSmallAlloc := 0
      freelist := [] }
  let s := { s with spans := sp :: s.spans }
  (s.sizes.objects sp).foldl (carveObject sp.start) s

/-- A round of the loop of `trim_free_list`. -/
def trimObject (obj : Nat) (s : SmallPool) : SmallPool :=
  let span := toPage obj - (s.pages (toPage obj)).offsetInSpan
  let s := if (s.pages span).freelist.isEmpty then { s with spanList := span :: s.spanList } else s
  let s := s.setPage span fun page =>
    { page with
      freelist := obj :: page.freelist
      nrSmallAlloc := page.nrSmallAlloc - 1 }
  if (s.pages span).nrSmallAlloc = 0 then
    { s with
      pagesInUse := s.pagesInUse - .ofNat (s.pages span).spanSize
      spanList := s.spanList.erase span
      spans := s.spans.filter (·.start ≠ span)
      -- `free_span`
      returned := s.returned ++ [⟨s.spans.find? (·.start = span), span, (s.pages span).spanSize,
        (s.pages span).freelist⟩] }
  else s

/-- The loop of `trim_free_list`, for as many rounds as there are objects. -/
def trimFreeList : Nat → SmallPool → SmallPool
  | 0, s => s
  | k + 1, s =>
    match s.free with
    | [] => s
    | obj :: free =>
      if s.freeCount > s.sizes.goal then
        trimFreeList k ({ s with
          free
          freeCount := s.freeCount - 1 }.trimObject obj)
      else s

/-- `deallocate`. -/
def deallocate (obj : Nat) (s : SmallPool) : SmallPool :=
  let s := { s with
    free := obj :: s.free
    freeCount := s.freeCount + 1
    live := s.live.erase obj }
  if s.freeCount ≥ s.sizes.maxFree then trimFreeList s.free.length s else s

/-- `allocate` up to the second loop of `add_more_objects`, or to its end. -/
def allocate (s : SmallPool) : Option Nat × SmallPool :=
  match s.free with
  | [] =>
    let s := drainSpans s.spanList.length s
    (none, { s with refills := s.refills + 1 })
  | _ :: _ => s.popFree

/-- What the page allocator answers in a round of the second loop: whether there is a span of the
preferred size, else of the fallback size, or none; with its first page and the size it has. -/
inductive Answer
  | preferred (start size : Nat)
  | fallback (start size : Nat)
  | none
  deriving DecidableEq, Repr

/-- The span of an answer. -/
def Answer.span (z : Sizes) : Answer → Option Span
  | .preferred start size => some ⟨start, z.preferred, size⟩
  | .fallback start size => some ⟨start, z.fallback, size⟩
  | .none => Option.none

/-- A round of the second loop of `add_more_objects`, or its end and that of `allocate`. -/
def refill (answer : Answer) (s : SmallPool) : Option Nat × SmallPool :=
  if s.freeCount < s.sizes.goal then
    match answer.span s.sizes with
    | some sp => (none, s.addSpan sp)
    | none => { s with refills := s.refills - 1 }.popFree
  else { s with refills := s.refills - 1 }.popFree

/-- What can happen. -/
inductive Action
  | allocate
  | refill (answer : Answer)
  | deallocate (obj : Nat)
  /-- something else uses a page -/
  | other (p : Nat) (page : Page)
  deriving DecidableEq, Repr

/-- One action; a round of a loop that no call is in changes nothing. -/
def step (s : SmallPool) : Action → SmallPool
  | .allocate => s.allocate.2
  | .refill answer => if s.refills = 0 then s else (s.refill answer).2
  | .deallocate obj => s.deallocate obj
  | .other p page => { s with pages := Function.update s.pages p page }

/-- The pool after the actions, oldest first. -/
def run (s : SmallPool) (as : List Action) : SmallPool := as.foldl step s

/-- A page of a span. -/
def Span.Has (sp : Span) (p : Nat) : Prop := sp.start ≤ p ∧ p < sp.start + sp.size

/-- Two spans have no page in common. -/
def Span.Apart (sp sp' : Span) : Prop :=
  sp.start + sp.size ≤ sp'.start ∨ sp'.start + sp'.size ≤ sp.start

/-- Callers free what they have, the page allocator gives spans that are large enough and that are
not in use, and others leave the pages of the pool alone. -/
def Valid (s : SmallPool) : Action → Prop
  | .allocate => True
  | .refill answer => ∀ sp ∈ answer.span s.sizes,
    sp.pages ≤ sp.size ∧ ∀ sp' ∈ s.spans, sp.Apart sp'
  | .deallocate obj => obj ∈ s.live
  | .other p _ => ∀ sp ∈ s.spans, ¬ sp.Has p

instance (sp sp' : Span) : Decidable (sp.Apart sp') := inferInstanceAs (Decidable (_ ∨ _))

instance (sp : Span) (p : Nat) : Decidable (sp.Has p) := inferInstanceAs (Decidable (_ ∧ _))

instance (s : SmallPool) (a : Action) : Decidable (Valid s a) := by
  cases a <;> unfold Valid <;> infer_instance

/-- The actions of a run are valid where they are taken. -/
def ValidRun : SmallPool → List Action → Prop
  | _, [] => True
  | s, a :: as => Valid s a ∧ ValidRun (s.step a) as

def ValidRun.dec : ∀ s as, Decidable (ValidRun s as)
  | _, [] => .isTrue trivial
  | s, a :: as =>
    have := ValidRun.dec (s.step a) as
    inferInstanceAs (Decidable (Valid s a ∧ ValidRun (s.step a) as))

instance (s : SmallPool) (as : List Action) : Decidable (ValidRun s as) := ValidRun.dec s as

/-! ## Where the objects are -/

/-- An object is in one place, the marks of the spans say how many are in use, and a span is given
back when it has all its objects. -/
structure Conserves (s : SmallPool) : Prop where
  places : ∀ sp ∈ s.spans, ∀ obj ∈ s.sizes.objects sp,
    s.live.count obj + s.free.count obj + (s.pages sp.start).freelist.count obj = 1
  carved : ∀ obj, obj ∈ s.live ∨ obj ∈ s.free → ∃ sp ∈ s.spans, obj ∈ s.sizes.objects sp
  freelists : ∀ sp ∈ s.spans, ∀ obj ∈ (s.pages sp.start).freelist, obj ∈ s.sizes.objects sp
  apart : s.spans.Pairwise Span.Apart
  exclusive : s.live.Nodup
  used : ∀ sp ∈ s.spans, (s.pages sp.start).nrSmallAlloc.toNat =
    s.live.countP (· ∈ s.sizes.objects sp) + s.free.countP (· ∈ s.sizes.objects sp)
  listed : ∀ sp ∈ s.spans, sp.start ∈ s.spanList ↔ (s.pages sp.start).freelist ≠ []
  onList : s.spanList.Nodup ∧ ∀ p ∈ s.spanList, ∃ sp ∈ s.spans, sp.start = p
  count : s.freeCount = s.free.length
  returned : ∀ r ∈ s.returned, ∃ sp, r.span = some sp ∧ r.start = sp.start ∧ r.size = sp.size ∧
    r.freelist.Perm (s.sizes.objects sp)

/-! ## Spans -/

section Spans

variable {z : Sizes} {sp sp' : Span} {obj : Nat}

theorem Span.Apart.symm (h : sp.Apart sp') : sp'.Apart sp := Or.symm h

theorem mem_objects : obj ∈ z.objects sp ↔
    ∃ k < sp.pages * pageSize / z.objectSize, sp.start * pageSize + k * z.objectSize = obj := by
  simp [Sizes.objects]

/-- An object begins in a page it was carved from. -/
theorem toPage_of_mem (h : obj ∈ z.objects sp) :
    ∃ i < sp.pages, toPage obj = sp.start + i := by
  obtain ⟨k, hk, rfl⟩ := mem_objects.mp h
  have hsize : 0 < z.objectSize := Nat.lt_of_lt_of_le (by decide) z.objectSize_ge
  have hlt : k * z.objectSize < sp.pages * pageSize := by
    have hle : (k + 1) * z.objectSize ≤ sp.pages * pageSize :=
      (Nat.le_div_iff_mul_le hsize).mp hk
    rw [Nat.succ_mul] at hle
    omega
  refine ⟨k * z.objectSize / pageSize, (Nat.div_lt_iff_lt_mul (by decide)).mpr hlt, ?_⟩
  rw [toPage, Nat.add_comm, Nat.add_mul_div_right _ _ (by decide), Nat.add_comm]

theorem objects_nodup : (z.objects sp).Nodup := by
  have hsize : 0 < z.objectSize := Nat.lt_of_lt_of_le (by decide) z.objectSize_ge
  refine List.Nodup.map ?_ List.nodup_range
  intro a b hab
  exact Nat.eq_of_mul_eq_mul_right hsize (Nat.add_left_cancel hab)

/-- Spans without a common page have no common object. -/
theorem not_mem_of_apart (hsp : sp.pages ≤ sp.size) (hsp' : sp'.pages ≤ sp'.size)
    (h : sp.Apart sp') (hobj : obj ∈ z.objects sp) : obj ∉ z.objects sp' := by
  intro hobj'
  obtain ⟨i, hi, hp⟩ := toPage_of_mem hobj
  obtain ⟨j, hj, hp'⟩ := toPage_of_mem hobj'
  rw [hp] at hp'
  obtain h | h := h
  · omega
  · omega

end Spans

/-! ## The invariant -/

/-- The objects of a span that are in a list. -/
def Sizes.inSpan (z : Sizes) (sp : Span) (l : List Nat) : List Nat := l.filter (· ∈ z.objects sp)

/-- What holds of a span of the pool when the objects `out` are not in the free list of a span. -/
structure SpanOk (z : Sizes) (pages : Nat → Page) (spanList out : List Nat) (sp : Span) : Prop where
  fits : 0 < sp.pages ∧ sp.pages ≤ sp.size
  few : sp.pages * pageSize / z.objectSize < 2 ^ 16
  offset : ∀ i < sp.pages, (pages (sp.start + i)).offsetInSpan = i
  size : (pages sp.start).spanSize = sp.size
  objects : (z.inSpan sp out ++ (pages sp.start).freelist).Perm (z.objects sp)
  used : (pages sp.start).nrSmallAlloc.toNat = (z.inSpan sp out).length
  listed : sp.start ∈ spanList ↔ (pages sp.start).freelist ≠ []

/-- What a call of `free_span` is to give back. -/
def Returned.Ok (z : Sizes) (r : Returned) : Prop :=
  ∃ sp, r.span = some sp ∧ r.start = sp.start ∧ r.size = sp.size ∧ r.freelist.Perm (z.objects sp)

/-- The invariant of the runs, with the objects that are not in the free list of a span. -/
structure InvOut (s : SmallPool) (out : List Nat) : Prop where
  spans : ∀ sp ∈ s.spans, SpanOk s.sizes s.pages s.spanList out sp
  apart : s.spans.Pairwise Span.Apart
  carved : ∀ obj ∈ out, ∃ sp ∈ s.spans, obj ∈ s.sizes.objects sp
  onList : ∀ p ∈ s.spanList, ∃ sp ∈ s.spans, sp.start = p
  nodup : s.spanList.Nodup
  count : s.freeCount = s.free.length
  returned : ∀ r ∈ s.returned, r.Ok s.sizes

/-- These objects are with the caller or free. -/
def Inv (s : SmallPool) : Prop := InvOut s (s.live ++ s.free)

variable {s : SmallPool} {out out' : List Nat} {sp : Span} {obj : Nat}

theorem SpanOk.perm {z : Sizes} {pages : Nat → Page} {spanList : List Nat}
    (h : SpanOk z pages spanList out sp) (hp : out.Perm out') : SpanOk z pages spanList out' sp := by
  have hin : (z.inSpan sp out).Perm (z.inSpan sp out') := hp.filter _
  refine ⟨h.fits, h.few, h.offset, h.size, ?_, ?_, h.listed⟩
  · exact (hin.symm.append_right _).trans h.objects
  · rw [h.used, hin.length_eq]

theorem InvOut.perm (h : InvOut s out) (hp : out.Perm out') : InvOut s out' :=
  ⟨fun sp hsp => (h.spans sp hsp).perm hp, h.apart, fun obj hobj => h.carved obj (hp.mem_iff.mpr hobj),
    h.onList, h.nodup, h.count, h.returned⟩

instance : Std.Symm Span.Apart := ⟨fun _ _ h => h.symm⟩

/-- Two spans that share a page are the same. -/
theorem InvOut.eq_of_page (h : InvOut s out) {sp' : Span} {p : Nat} (hsp : sp ∈ s.spans)
    (hsp' : sp' ∈ s.spans) (hp : sp.Has p) (hp' : sp'.Has p) : sp = sp' := by
  by_contra hne
  obtain hap | hap := h.apart.forall hsp hsp' hne
  · exact absurd hp.2 (Nat.not_lt.mpr (Nat.le_trans hap hp'.1))
  · exact absurd hp'.2 (Nat.not_lt.mpr (Nat.le_trans hap hp.1))

theorem SpanOk.has_start {z : Sizes} {pages : Nat → Page} {spanList : List Nat}
    (h : SpanOk z pages spanList out sp) : sp.Has sp.start :=
  ⟨Nat.le_refl _, Nat.lt_add_of_pos_right (Nat.lt_of_lt_of_le h.fits.1 h.fits.2)⟩

/-- A span is not concerned by what happens to other pages and objects. -/
theorem SpanOk.other {z : Sizes} {pages pages' : Nat → Page} {spanList spanList' : List Nat}
    (h : SpanOk z pages spanList out sp) (hpages : ∀ p, sp.Has p → pages' p = pages p)
    (hin : z.inSpan sp out' = z.inSpan sp out)
    (hlist : sp.start ∈ spanList' ↔ sp.start ∈ spanList) : SpanOk z pages' spanList' out' sp := by
  have hstart := hpages sp.start h.has_start
  refine ⟨h.fits, h.few, ?_, ?_, ?_, ?_, ?_⟩
  · intro i hi
    rw [hpages _ ⟨Nat.le_add_right _ _, Nat.add_lt_add_left (Nat.lt_of_lt_of_le hi h.fits.2) _⟩]
    exact h.offset i hi
  · rw [hstart]
    exact h.size
  · rw [hstart, hin]
    exact h.objects
  · rw [hstart, hin]
    exact h.used
  · rw [hstart, hlist]
    exact h.listed

/-- The page of a span is changed, and with it what the span has. -/
theorem SpanOk.update {z : Sizes} {pages : Nat → Page} {spanList spanList' : List Nat}
    (h : SpanOk z pages spanList out sp) {page : Page}
    (hoffset : page.offsetInSpan = (pages sp.start).offsetInSpan)
    (hsize : page.spanSize = (pages sp.start).spanSize)
    (hobjects : (z.inSpan sp out' ++ page.freelist).Perm (z.objects sp))
    (hused : page.nrSmallAlloc.toNat = (z.inSpan sp out').length)
    (hlisted : sp.start ∈ spanList' ↔ page.freelist ≠ []) :
    SpanOk z (Function.update pages sp.start page) spanList' out' sp := by
  refine ⟨h.fits, h.few, ?_, ?_, ?_, ?_, ?_⟩
  · intro i hi
    have hoff := h.offset i hi
    by_cases hstart : sp.start + i = sp.start
    · rw [hstart] at hoff ⊢
      rw [Function.update_self, hoffset, hoff]
    · rw [Function.update_of_ne hstart, hoff]
  · rw [Function.update_self, hsize, h.size]
  · rw [Function.update_self]
    exact hobjects
  · rw [Function.update_self]
    exact hused
  · rw [Function.update_self]
    exact hlisted

theorem inSpan_append {z : Sizes} {l l' : List Nat} :
    z.inSpan sp (l ++ l') = z.inSpan sp l ++ z.inSpan sp l' := List.filter_append ..

theorem inSpan_of_forall {z : Sizes} {l : List Nat} (h : ∀ obj ∈ l, obj ∈ z.objects sp) :
    z.inSpan sp l = l :=
  List.filter_eq_self.mpr fun obj hobj => decide_eq_true (h obj hobj)

theorem inSpan_of_forall_not {z : Sizes} {l : List Nat} (h : ∀ obj ∈ l, obj ∉ z.objects sp) :
    z.inSpan sp l = [] :=
  List.filter_eq_nil_iff.mpr fun obj hobj => by
    rw [decide_eq_true_eq]
    exact h obj hobj

theorem SpanOk.mem_objects_of_freelist {z : Sizes} {pages : Nat → Page} {spanList : List Nat}
    (h : SpanOk z pages spanList out sp) (hobj : obj ∈ (pages sp.start).freelist) :
    obj ∈ z.objects sp :=
  h.objects.mem_iff.mp (List.mem_append_right _ hobj)

/-- The objects in use and the free ones of a span are as many as it has. -/
theorem SpanOk.length {z : Sizes} {pages : Nat → Page} {spanList : List Nat}
    (h : SpanOk z pages spanList out sp) :
    (pages sp.start).nrSmallAlloc.toNat + (pages sp.start).freelist.length < 2 ^ 16 := by
  have hlen := h.objects.length_eq
  rw [List.length_append, Sizes.objects, List.length_map, List.length_range] at hlen
  rw [h.used, hlen]
  exact h.few

/-- Other spans have none of the objects of a span. -/
theorem InvOut.inSpan_other (h : InvOut s out) {sp' : Span} {l : List Nat} (hsp : sp ∈ s.spans)
    (hsp' : sp' ∈ s.spans) (hne : sp' ≠ sp) (hl : ∀ obj ∈ l, obj ∈ s.sizes.objects sp) :
    s.sizes.inSpan sp' l = [] :=
  inSpan_of_forall_not fun obj hobj => not_mem_of_apart (h.spans sp hsp).fits.2
    (h.spans sp' hsp').fits.2 (h.apart.forall hsp hsp' hne.symm) (hl obj hobj)

/-! ## The loops over objects -/

theorem takeObject_foldl (span : Nat) (l : List Nat) (s : SmallPool) :
    l.foldl (takeObject span) s = { s with
      free := l.reverse ++ s.free
      freeCount := s.freeCount + l.length
      pages := Function.update s.pages span { s.pages span with
        freelist := (s.pages span).freelist.drop l.length
        nrSmallAlloc := (s.pages span).nrSmallAlloc + .ofNat l.length } } := by
  induction l generalizing s with
  | nil =>
    have hzero : (s.pages span).nrSmallAlloc + UInt16.ofNat 0 = (s.pages span).nrSmallAlloc :=
      UInt16.add_zero _
    simp only [List.foldl_nil, List.reverse_nil, List.nil_append, List.length_nil, Nat.add_zero,
      List.drop_zero, hzero, Function.update_eq_self]
  | cons obj l ih =>
    rw [List.foldl_cons, ih]
    simp only [takeObject, setPage, Function.update_self, Function.update_idem, List.reverse_cons,
      List.append_assoc, List.singleton_append, List.length_cons, List.drop_tail]
    congr 1
    · omega
    · congr 2
      rw [UInt16.add_assoc, UInt16.ofNat_add, UInt16.add_comm (UInt16.ofNat l.length)]
      rfl

theorem carveObject_foldl (span : Nat) (l : List Nat) (s : SmallPool) :
    l.foldl (carveObject span) s = { s with
      free := l.reverse ++ s.free
      freeCount := s.freeCount + l.length
      pages := Function.update s.pages span { s.pages span with
        nrSmallAlloc := (s.pages span).nrSmallAlloc + .ofNat l.length } } := by
  induction l generalizing s with
  | nil =>
    have hzero : (s.pages span).nrSmallAlloc + UInt16.ofNat 0 = (s.pages span).nrSmallAlloc :=
      UInt16.add_zero _
    simp only [List.foldl_nil, List.reverse_nil, List.nil_append, List.length_nil, Nat.add_zero,
      hzero, Function.update_eq_self]
  | cons obj l ih =>
    rw [List.foldl_cons, ih]
    simp only [carveObject, setPage, Function.update_self, Function.update_idem, List.reverse_cons,
      List.append_assoc, List.singleton_append, List.length_cons]
    congr 1
    · omega
    · congr 2
      rw [UInt16.add_assoc, UInt16.ofNat_add, UInt16.add_comm (UInt16.ofNat l.length)]
      rfl

/-- The pages of a new span. -/
def claimed (start n : Nat) (pages : Nat → Page) (p : Nat) : Page :=
  if start ≤ p ∧ p < start + n then
    { pages p with
      offsetInSpan := p - start
      pool := true }
  else pages p

theorem claimed_succ (start n : Nat) (pages : Nat → Page) :
    Function.update (claimed start n pages) (start + n)
      { claimed start n pages (start + n) with
        offsetInSpan := n
        pool := true } = claimed start (n + 1) pages := by
  funext p
  by_cases hp : p = start + n
  · subst hp
    have hout : claimed start n pages (start + n) = pages (start + n) := if_neg (by omega)
    rw [Function.update_self, hout, claimed, if_pos (by omega), Nat.add_sub_cancel_left]
  · rw [Function.update_of_ne hp, claimed, claimed]
    by_cases hin : start ≤ p ∧ p < start + n
    · rw [if_pos hin, if_pos (by omega)]
    · rw [if_neg hin, if_neg (by omega)]

theorem claimPage_foldl (start n : Nat) (s : SmallPool) :
    (List.range n).foldl (claimPage start) s = { s with pages := claimed start n s.pages } := by
  induction n with
  | zero =>
    have hpages : claimed start 0 s.pages = s.pages := by
      funext p
      exact if_neg (by omega)
    rw [hpages]
    rfl
  | succ n ih =>
    rw [List.range_succ, List.foldl_append, ih, List.foldl_cons, List.foldl_nil, ← claimed_succ]
    rfl

/-! ## The operations keep the invariant -/

/-- A free object goes to the caller. -/
theorem popFree_inv (h : Inv s) : Inv s.popFree.2 := by
  unfold popFree
  cases hfree : s.free with
  | nil => exact h
  | cons obj free =>
    have hout : (s.live ++ s.free).Perm ((obj :: s.live) ++ free) := by
      rw [hfree]
      exact List.perm_middle
    have hinv := h.perm hout
    have hcount := h.count
    rw [hfree] at hcount
    refine ⟨hinv.spans, hinv.apart, hinv.carved, hinv.onList, hinv.nodup, ?_, hinv.returned⟩
    show s.freeCount - 1 = free.length
    rw [hcount]
    rfl

/-- The objects of the span at the front of the list become free. -/
theorem drain_inv (h : Inv s) {span : Nat} {rest : List Nat} (hlist : s.spanList = span :: rest) :
    Inv ((s.pages span).freelist.foldl (takeObject span) { s with spanList := rest }) := by
  obtain ⟨sp, hsp, rfl⟩ := h.onList span (hlist ▸ List.mem_cons_self)
  have hok := h.spans sp hsp
  have hnodup := h.nodup
  rw [hlist, List.nodup_cons] at hnodup
  have hall : ∀ obj ∈ (s.pages sp.start).freelist, obj ∈ s.sizes.objects sp := fun obj hobj =>
    hok.mem_objects_of_freelist hobj
  rw [takeObject_foldl]
  have hout : ((s.pages sp.start).freelist ++ (s.live ++ s.free)).Perm
      (s.live ++ ((s.pages sp.start).freelist.reverse ++ s.free)) := by
    refine (List.perm_append_comm_assoc _ _ _).trans (List.Perm.append_left _ ?_)
    exact (List.reverse_perm _).symm.append_right _
  refine InvOut.perm ?_ hout
  refine ⟨?_, h.apart, ?_, ?_, hnodup.2, ?_, h.returned⟩
  · intro sp' hsp'
    by_cases heq : sp' = sp
    · subst heq
      have hin : s.sizes.inSpan sp' ((s.pages sp'.start).freelist ++ (s.live ++ s.free)) =
          (s.pages sp'.start).freelist ++ s.sizes.inSpan sp' (s.live ++ s.free) := by
        rw [inSpan_append, inSpan_of_forall hall]
      show SpanOk s.sizes (Function.update s.pages sp'.start _) rest _ sp'
      refine hok.update rfl rfl ?_ ?_ ?_
      · rw [hin, List.drop_length, List.append_nil]
        exact List.perm_append_comm.trans hok.objects
      · have hlen := hok.length
        show ((s.pages sp'.start).nrSmallAlloc + .ofNat _).toNat = _
        rw [hin, List.length_append, ← hok.used, UInt16.toNat_add,
          UInt16.toNat_ofNat_of_lt' (Nat.lt_of_le_of_lt (Nat.le_add_left _ _) hlen),
          Nat.mod_eq_of_lt hlen, Nat.add_comm]
      · rw [List.drop_length]
        exact ⟨fun hmem => absurd hmem hnodup.1, fun hne => absurd rfl hne⟩
    · refine (h.spans sp' hsp').other ?_ ?_ ?_
      · intro p hp
        refine Function.update_of_ne ?_ _ _
        rintro rfl
        exact heq (h.eq_of_page hsp' hsp hp hok.has_start)
      · rw [inSpan_append, h.inSpan_other hsp hsp' heq hall, List.nil_append]
      · have hne : sp'.start ≠ sp.start := by
          intro hstart
          exact heq (h.eq_of_page hsp' hsp (hstart ▸ (h.spans sp' hsp').has_start) hok.has_start)
        show sp'.start ∈ rest ↔ sp'.start ∈ s.spanList
        rw [hlist, List.mem_cons, or_iff_right hne]
  · intro obj hobj
    obtain hobj | hobj := List.mem_append.mp hobj
    · exact ⟨sp, hsp, hall obj hobj⟩
    · exact h.carved obj hobj
  · intro p hp
    exact h.onList p (hlist ▸ List.mem_cons_of_mem _ hp)
  · show s.freeCount + _ = (_ ++ s.free).length
    rw [h.count, List.length_append, List.length_reverse, Nat.add_comm]

theorem drainSpans_inv {k : Nat} (h : Inv s) : Inv (drainSpans k s) := by
  induction k generalizing s with
  | zero => exact h
  | succ k ih =>
    rw [drainSpans]
    cases hlist : s.spanList with
    | nil => exact h
    | cons span rest =>
      dsimp only
      split
      · exact ih (drain_inv h hlist)
      · exact h

/-- The pages with a new span. -/
def withSpan (z : Sizes) (sp : Span) (pages : Nat → Page) : Nat → Page :=
  Function.update (claimed sp.start sp.pages pages) sp.start
    { offsetInSpan := 0
      nrSmallAlloc := .ofNat (z.objects sp).length
      spanSize := sp.size
      pool := true
      freelist := [] }

theorem addSpan_eq (hpos : 0 < sp.pages) : s.addSpan sp = { s with
    free := (s.sizes.objects sp).reverse ++ s.free
    freeCount := s.freeCount + (s.sizes.objects sp).length
    pagesInUse := s.pagesInUse + .ofNat sp.pages
    pages := withSpan s.sizes sp s.pages
    spans := sp :: s.spans } := by
  have hstart : ∀ pages : Nat → Page, claimed sp.start sp.pages pages sp.start =
      { pages sp.start with
        offsetInSpan := 0
        pool := true } := by
    intro pages
    rw [claimed, if_pos ⟨Nat.le_refl _, Nat.lt_add_of_pos_right hpos⟩, Nat.sub_self]
  have hclaimed : ∀ page : Page, claimed sp.start sp.pages (Function.update s.pages sp.start page) =
      Function.update (claimed sp.start sp.pages s.pages) sp.start
        { page with
          offsetInSpan := 0
          pool := true } := by
    intro page
    funext p
    by_cases hp : p = sp.start
    · subst hp
      rw [hstart, Function.update_self, Function.update_self]
    · rw [Function.update_of_ne hp, claimed, claimed, Function.update_of_ne hp]
  unfold addSpan
  dsimp only
  rw [claimPage_foldl, carveObject_foldl]
  simp only [setPage, hclaimed, Function.update_self, Function.update_idem, UInt16.zero_add]
  rfl

theorem withSpan_of_not {z : Sizes} {pages : Nat → Page} {p : Nat} (hpos : 0 < sp.pages)
    (hp : ¬ (sp.start ≤ p ∧ p < sp.start + sp.pages)) : withSpan z sp pages p = pages p := by
  have hne : p ≠ sp.start := by omega
  rw [withSpan, Function.update_of_ne hne, claimed, if_neg hp]

/-- A new span, whose objects become free. -/
theorem addSpan_inv (h : Inv s) (hpos : 0 < sp.pages) (hsize : sp.pages ≤ sp.size)
    (hfew : sp.pages * pageSize / s.sizes.objectSize < 2 ^ 16)
    (hapart : ∀ sp' ∈ s.spans, sp.Apart sp') : Inv (s.addSpan sp) := by
  have hlen : (s.sizes.objects sp).length < 2 ^ 16 := by
    rw [Sizes.objects, List.length_map, List.length_range]
    exact hfew
  have hhas : sp.Has sp.start :=
    ⟨Nat.le_refl _, Nat.lt_add_of_pos_right (Nat.lt_of_lt_of_le hpos hsize)⟩
  have hother : ∀ sp' ∈ s.spans, ∀ p, sp'.Has p → ¬ sp.Has p := by
    intro sp' hsp' p hp' hp
    obtain hap | hap := hapart sp' hsp'
    · exact absurd hp.2 (Nat.not_lt.mpr (Nat.le_trans hap hp'.1))
    · exact absurd hp'.2 (Nat.not_lt.mpr (Nat.le_trans hap hp.1))
  have hstart : ∀ sp' ∈ s.spans, sp'.start ≠ sp.start := by
    intro sp' hsp' heq
    exact hother sp' hsp' sp.start (heq ▸ (h.spans sp' hsp').has_start) hhas
  have hnone : s.sizes.inSpan sp (s.live ++ s.free) = [] := by
    refine inSpan_of_forall_not fun obj hobj => ?_
    obtain ⟨sp', hsp', hmem⟩ := h.carved obj hobj
    exact not_mem_of_apart (h.spans sp' hsp').fits.2 hsize (hapart sp' hsp').symm hmem
  rw [addSpan_eq hpos]
  have hout : (s.sizes.objects sp ++ (s.live ++ s.free)).Perm
      (s.live ++ ((s.sizes.objects sp).reverse ++ s.free)) := by
    refine (List.perm_append_comm_assoc _ _ _).trans (List.Perm.append_left _ ?_)
    exact (List.reverse_perm _).symm.append_right _
  refine InvOut.perm ?_ hout
  refine ⟨?_, List.pairwise_cons.mpr ⟨hapart, h.apart⟩, ?_, ?_, h.nodup, ?_, h.returned⟩
  · intro sp' hsp'
    obtain rfl | hsp' := List.mem_cons.mp hsp'
    · have hin : s.sizes.inSpan sp' (s.sizes.objects sp' ++ (s.live ++ s.free)) =
          s.sizes.objects sp' := by
        rw [inSpan_append, hnone, inSpan_of_forall fun _ hobj => hobj, List.append_nil]
      have hpage : withSpan s.sizes sp' s.pages sp'.start = ⟨0, .ofNat (s.sizes.objects sp').length,
          sp'.size, true, []⟩ := Function.update_self ..
      show SpanOk s.sizes (withSpan s.sizes sp' s.pages) s.spanList _ sp'
      refine ⟨⟨hpos, hsize⟩, hfew, ?_, ?_, ?_, ?_, ?_⟩
      · intro i hi
        by_cases hzero : i = 0
        · rw [hzero, Nat.add_zero, hpage]
        · have hne : sp'.start + i ≠ sp'.start := by omega
          rw [withSpan, Function.update_of_ne hne, claimed, if_pos (by omega)]
          exact Nat.add_sub_cancel_left _ _
      · rw [hpage]
      · rw [hpage, hin, List.append_nil]
      · rw [hpage, hin]
        exact UInt16.toNat_ofNat_of_lt' hlen
      · rw [hpage]
        refine ⟨fun hmem => ?_, fun hne => absurd rfl hne⟩
        obtain ⟨sp, hsp, heq⟩ := h.onList _ hmem
        exact absurd heq (hstart sp hsp)
    · refine (h.spans sp' hsp').other ?_ ?_ Iff.rfl
      · intro p hp
        refine withSpan_of_not hpos fun hin => hother sp' hsp' p hp ⟨hin.1, ?_⟩
        exact Nat.lt_of_lt_of_le hin.2 (Nat.add_le_add_left hsize _)
      · have hothers : s.sizes.inSpan sp' (s.sizes.objects sp) = [] :=
          inSpan_of_forall_not fun _ hobj => not_mem_of_apart hsize (h.spans sp' hsp').fits.2
            (hapart sp' hsp') hobj
        show s.sizes.inSpan sp' (s.sizes.objects sp ++ (s.live ++ s.free)) = _
        rw [inSpan_append, hothers, List.nil_append]
  · intro obj hobj
    obtain hobj | hobj := List.mem_append.mp hobj
    · exact ⟨sp, List.mem_cons_self, hobj⟩
    · obtain ⟨sp', hsp', hmem⟩ := h.carved obj hobj
      exact ⟨sp', List.mem_cons_of_mem _ hsp', hmem⟩
  · intro p hp
    obtain ⟨sp', hsp', heq⟩ := h.onList p hp
    exact ⟨sp', List.mem_cons_of_mem _ hsp', heq⟩
  · show s.freeCount + _ = (_ ++ s.free).length
    rw [h.count, List.length_append, List.length_reverse, Nat.add_comm]

/-- The span of an object is found through its page. -/
theorem SpanOk.toPage_sub {z : Sizes} {pages : Nat → Page} {spanList : List Nat}
    (h : SpanOk z pages spanList out sp) (hobj : obj ∈ z.objects sp) :
    toPage obj - (pages (toPage obj)).offsetInSpan = sp.start := by
  obtain ⟨i, hi, hpage⟩ := toPage_of_mem hobj
  rw [hpage, h.offset i hi, Nat.add_sub_cancel]

theorem InvOut.find_start (h : InvOut s out) (hsp : sp ∈ s.spans) :
    s.spans.find? (·.start = sp.start) = some sp := by
  cases hfind : s.spans.find? (·.start = sp.start) with
  | none => exact absurd (List.find?_eq_none.mp hfind sp hsp) (by simp)
  | some sp' =>
    have hsp' := List.mem_of_find?_eq_some hfind
    have hstart : sp'.start = sp.start := by simpa using List.find?_some hfind
    rw [h.eq_of_page hsp hsp' (h.spans sp hsp).has_start
      (hstart ▸ (h.spans sp' hsp').has_start)]

theorem InvOut.start_ne (h : InvOut s out) {sp' : Span} (hsp : sp ∈ s.spans) (hsp' : sp' ∈ s.spans)
    (hne : sp' ≠ sp) : sp'.start ≠ sp.start := fun hstart =>
  hne (h.eq_of_page hsp' hsp (hstart ▸ (h.spans sp' hsp').has_start) (h.spans sp hsp).has_start)

/-- The list of the spans with free objects, when a span has got one. -/
def listWith (s : SmallPool) (span : Nat) : List Nat :=
  if (s.pages span).freelist.isEmpty then span :: s.spanList else s.spanList

theorem InvOut.mem_listWith (h : InvOut s out) (hsp : sp ∈ s.spans) :
    sp.start ∈ s.listWith sp.start := by
  unfold listWith
  split
  · exact List.mem_cons_self
  · rename_i hne
    exact (h.spans sp hsp).listed.mpr (by simpa using hne)

theorem mem_listWith_of_ne {p span : Nat} (hne : p ≠ span) :
    p ∈ s.listWith span ↔ p ∈ s.spanList := by
  unfold listWith
  split
  · rw [List.mem_cons, or_iff_right hne]
  · rfl

theorem InvOut.nodup_listWith (h : InvOut s out) (hsp : sp ∈ s.spans) :
    (s.listWith sp.start).Nodup := by
  unfold listWith
  split
  · rename_i hempty
    refine List.nodup_cons.mpr ⟨fun hmem => ?_, h.nodup⟩
    exact (h.spans sp hsp).listed.mp hmem (by simpa using hempty)
  · exact h.nodup

/-- The page of a span that gets an object back. -/
def Page.withObject (obj : Nat) (page : Page) : Page :=
  { page with
    freelist := obj :: page.freelist
    nrSmallAlloc := page.nrSmallAlloc - 1 }

theorem trimObject_eq {span : Nat}
    (hspan : toPage obj - (s.pages (toPage obj)).offsetInSpan = span) :
    s.trimObject obj =
      if (s.pages span).nrSmallAlloc - 1 = 0 then
        { s with
          pagesInUse := s.pagesInUse - .ofNat (s.pages span).spanSize
          pages := Function.update s.pages span ((s.pages span).withObject obj)
          spanList := (s.listWith span).erase span
          spans := s.spans.filter (·.start ≠ span)
          returned := s.returned ++ [⟨s.spans.find? (·.start = span), span,
            (s.pages span).spanSize, obj :: (s.pages span).freelist⟩] }
      else
        { s with
          pages := Function.update s.pages span ((s.pages span).withObject obj)
          spanList := s.listWith span } := by
  unfold trimObject listWith
  rw [hspan]
  dsimp only
  by_cases hempty : (s.pages span).freelist.isEmpty = true
  · rw [if_pos hempty, if_pos hempty]
    simp only [setPage, Function.update_self]
    rfl
  · rw [if_neg hempty, if_neg hempty]
    simp only [setPage, Function.update_self]
    rfl

/-- A free object goes back to its span, and the span, when it has all its objects, to the page
allocator. -/
theorem trimObject_inv (h : InvOut s (obj :: out)) : InvOut (s.trimObject obj) out := by
  obtain ⟨sp, hsp, hobj⟩ := h.carved obj List.mem_cons_self
  have hok := h.spans sp hsp
  have hin : s.sizes.inSpan sp (obj :: out) = obj :: s.sizes.inSpan sp out :=
    List.filter_cons_of_pos (decide_eq_true hobj)
  have hobjects := hok.objects
  have hused := hok.used
  rw [hin] at hobjects hused
  have hsub : ((s.pages sp.start).nrSmallAlloc - 1).toNat = (s.sizes.inSpan sp out).length := by
    have hone : (1 : UInt16) ≤ (s.pages sp.start).nrSmallAlloc := by
      rw [UInt16.le_iff_toNat_le, hused]
      exact Nat.succ_le_succ (Nat.zero_le _)
    rw [UInt16.toNat_sub_of_le _ _ hone, hused]
    rfl
  have hother : ∀ sp' ∈ s.spans, sp' ≠ sp → ∀ list : List Nat,
      (sp'.start ∈ list ↔ sp'.start ∈ s.spanList) → ∀ page,
      SpanOk s.sizes (Function.update s.pages sp.start page) list out sp' := by
    intro sp' hsp' hne list hlist page
    refine (h.spans sp' hsp').other ?_ ?_ hlist
    · intro p hp
      refine Function.update_of_ne ?_ _ _
      rintro rfl
      exact hne (h.eq_of_page hsp' hsp hp hok.has_start)
    · have hnot : s.sizes.inSpan sp' [obj] = [] := by
        refine h.inSpan_other hsp hsp' hne fun o ho => ?_
        rw [List.mem_singleton.mp ho]
        exact hobj
      have happend : s.sizes.inSpan sp' ([obj] ++ out) =
          s.sizes.inSpan sp' [obj] ++ s.sizes.inSpan sp' out := inSpan_append
      rw [hnot, List.nil_append] at happend
      exact happend.symm
  have hpage : SpanOk s.sizes (Function.update s.pages sp.start ((s.pages sp.start).withObject obj))
      (s.listWith sp.start) out sp := by
    refine hok.update rfl rfl ?_ hsub ?_
    · exact List.perm_middle.trans hobjects
    · exact ⟨fun _ => List.cons_ne_nil _ _, fun _ => h.mem_listWith hsp⟩
  have hlist : ∀ p ∈ s.listWith sp.start, ∃ sp' ∈ s.spans, sp'.start = p := by
    intro p hp
    by_cases hne : p = sp.start
    · exact ⟨sp, hsp, hne.symm⟩
    · exact h.onList p ((mem_listWith_of_ne hne).mp hp)
  rw [trimObject_eq (hok.toPage_sub hobj)]
  split
  · rename_i hzero
    rw [hzero] at hsub
    have hnone : s.sizes.inSpan sp out = [] := List.length_eq_zero_iff.mp hsub.symm
    refine ⟨?_, h.apart.filter _, ?_, ?_, (h.nodup_listWith hsp).erase _, h.count, ?_⟩
    · intro sp' hsp'
      obtain ⟨hsp', hne⟩ := List.mem_filter.mp hsp'
      have hne : sp'.start ≠ sp.start := by simpa using hne
      refine hother sp' hsp' (fun heq => hne (by rw [heq])) _ ?_ _
      rw [List.mem_erase_of_ne hne, mem_listWith_of_ne hne]
    · intro o ho
      obtain ⟨sp', hsp', hmem⟩ := h.carved o (List.mem_cons_of_mem _ ho)
      refine ⟨sp', List.mem_filter.mpr ⟨hsp', ?_⟩, hmem⟩
      refine decide_eq_true (h.start_ne hsp hsp' ?_)
      rintro rfl
      exact absurd (decide_eq_true hmem) (List.filter_eq_nil_iff.mp hnone o ho)
    · intro p hp
      obtain ⟨hne, hp⟩ := (h.nodup_listWith hsp).mem_erase_iff.mp hp
      obtain ⟨sp', hsp', rfl⟩ := hlist p hp
      exact ⟨sp', List.mem_filter.mpr ⟨hsp', decide_eq_true hne⟩, rfl⟩
    · intro r hr
      obtain hr | hr := List.mem_append.mp hr
      · exact h.returned r hr
      · obtain rfl := List.mem_singleton.mp hr
        refine ⟨sp, h.find_start hsp, rfl, hok.size, ?_⟩
        rw [hnone] at hobjects
        exact hobjects
  · refine ⟨?_, h.apart, fun o ho => h.carved o (List.mem_cons_of_mem _ ho), hlist,
      h.nodup_listWith hsp, h.count, h.returned⟩
    intro sp' hsp'
    by_cases heq : sp' = sp
    · subst heq
      exact hpage
    · exact hother sp' hsp' heq _ (mem_listWith_of_ne (h.start_ne hsp hsp' heq)) _

theorem trimObject_free (obj : Nat) (s : SmallPool) :
    (s.trimObject obj).free = s.free ∧ (s.trimObject obj).live = s.live := by
  rw [trimObject_eq rfl]
  split
  · exact ⟨rfl, rfl⟩
  · exact ⟨rfl, rfl⟩

/-- The first free object is taken off the free list. -/
theorem Inv.takeFree (h : Inv s) {free : List Nat} (hfree : s.free = obj :: free) :
    InvOut { s with
      free
      freeCount := s.freeCount - 1 } (obj :: (s.live ++ free)) := by
  have hout : (s.live ++ s.free).Perm (obj :: (s.live ++ free)) := by
    rw [hfree]
    exact List.perm_middle
  have hinv := h.perm hout
  have hcount := h.count
  rw [hfree] at hcount
  refine ⟨hinv.spans, hinv.apart, hinv.carved, hinv.onList, hinv.nodup, ?_, hinv.returned⟩
  show s.freeCount - 1 = free.length
  rw [hcount]
  rfl

/-- A round of the loop of `trim_free_list`. -/
theorem Inv.trimRound (h : Inv s) {free : List Nat} (hfree : s.free = obj :: free) :
    Inv ({ s with
      free
      freeCount := s.freeCount - 1 }.trimObject obj) := by
  obtain ⟨hfree', hlive⟩ := trimObject_free obj { s with
    free
    freeCount := s.freeCount - 1 }
  unfold Inv
  rw [hfree', hlive]
  exact trimObject_inv (h.takeFree hfree)

theorem trimFreeList_inv {k : Nat} (h : Inv s) : Inv (trimFreeList k s) := by
  induction k generalizing s with
  | zero => exact h
  | succ k ih =>
    rw [trimFreeList]
    cases hfree : s.free with
    | nil => exact h
    | cons obj free =>
      dsimp only
      split
      · exact ih (h.trimRound hfree)
      · exact h

/-- An object comes back from the caller. -/
theorem Inv.giveBack (h : Inv s) (hobj : obj ∈ s.live) : Inv { s with
    free := obj :: s.free
    freeCount := s.freeCount + 1
    live := s.live.erase obj } := by
  have hout : (s.live ++ s.free).Perm (s.live.erase obj ++ (obj :: s.free)) :=
    ((List.perm_cons_erase hobj).append_right _).trans List.perm_middle.symm
  have hinv := h.perm hout
  exact ⟨hinv.spans, hinv.apart, hinv.carved, hinv.onList, hinv.nodup, congrArg (· + 1) h.count,
    hinv.returned⟩

theorem deallocate_inv (h : Inv s) (hobj : obj ∈ s.live) : Inv (s.deallocate obj) := by
  unfold deallocate
  dsimp only
  split
  · exact trimFreeList_inv (h.giveBack hobj)
  · exact h.giveBack hobj

/-- The calls of `allocate` that wait are not in the invariant. -/
theorem Inv.withRefills (h : Inv s) (refills : Nat) : Inv { s with refills } :=
  ⟨h.spans, h.apart, h.carved, h.onList, h.nodup, h.count, h.returned⟩

theorem allocate_inv (h : Inv s) : Inv s.allocate.2 := by
  unfold allocate
  split
  · exact (drainSpans_inv h).withRefills _
  · exact popFree_inv h

/-- A span of the page allocator has room for an object, and few. -/
theorem Answer.span_pages {z : Sizes} {answer : Answer} (hsp : sp ∈ answer.span z) :
    0 < sp.pages ∧ sp.pages * pageSize / z.objectSize < 2 ^ 16 := by
  have hz := z.objectSize_ge
  have hpos : ∀ n, z.objectSize ≤ n * pageSize → 0 < n := by
    intro n hn
    refine Nat.pos_of_ne_zero ?_
    rintro rfl
    omega
  cases answer with
  | preferred start size =>
    obtain rfl := Option.some.inj hsp
    exact ⟨hpos _ z.preferred_ge, z.preferred_few⟩
  | fallback start size =>
    obtain rfl := Option.some.inj hsp
    exact ⟨hpos _ z.fallback_ge, z.fallback_few⟩
  | none => cases hsp

theorem refill_inv {answer : Answer} (h : Inv s) (hvalid : Valid s (.refill answer)) :
    Inv (s.refill answer).2 := by
  unfold refill
  split
  · split
    · rename_i sp hspan
      obtain ⟨hsize, hapart⟩ := hvalid sp hspan
      obtain ⟨hpos, hfew⟩ := Answer.span_pages hspan
      exact addSpan_inv h hpos hsize hfew hapart
    · exact popFree_inv (h.withRefills _)
  · exact popFree_inv (h.withRefills _)

/-- One action keeps the invariant. -/
theorem step_inv {a : Action} (h : Inv s) (hvalid : Valid s a) : Inv (s.step a) := by
  cases a with
  | allocate => exact allocate_inv h
  | refill answer =>
    unfold step
    dsimp only
    split
    · exact h
    · exact refill_inv h hvalid
  | deallocate obj => exact deallocate_inv h hvalid
  | other p page =>
    refine ⟨fun sp hsp => (h.spans sp hsp).other ?_ rfl Iff.rfl, h.apart, h.carved, h.onList,
      h.nodup, h.count, h.returned⟩
    intro p' hp'
    refine Function.update_of_ne ?_ _ _
    rintro rfl
    exact hvalid sp hsp hp'

theorem Inv.conserves (h : Inv s) : Conserves s := by
  have hplaces : ∀ sp ∈ s.spans, ∀ obj ∈ s.sizes.objects sp,
      s.live.count obj + s.free.count obj + (s.pages sp.start).freelist.count obj = 1 := by
    intro sp hsp obj hobj
    have hcount := (h.spans sp hsp).objects.count_eq obj
    have hfilter : (s.sizes.inSpan sp (s.live ++ s.free)).count obj =
        (s.live ++ s.free).count obj := List.count_filter (decide_eq_true hobj)
    rw [List.count_append, hfilter, List.count_append,
      List.count_eq_one_of_mem objects_nodup hobj] at hcount
    exact hcount
  refine ⟨hplaces, ?_, ?_, h.apart, ?_, ?_, fun sp hsp => (h.spans sp hsp).listed,
    ⟨h.nodup, h.onList⟩, h.count, h.returned⟩
  · intro obj hobj
    exact h.carved obj (List.mem_append.mpr hobj)
  · intro sp hsp obj hobj
    exact (h.spans sp hsp).mem_objects_of_freelist hobj
  · rw [List.nodup_iff_count_le_one]
    intro obj
    by_cases hobj : obj ∈ s.live
    · obtain ⟨sp, hsp, hmem⟩ := h.carved obj (List.mem_append_left _ hobj)
      have hone := hplaces sp hsp obj hmem
      omega
    · rw [List.count_eq_zero_of_not_mem hobj]
      exact Nat.zero_le 1
  · intro sp hsp
    rw [(h.spans sp hsp).used, Sizes.inSpan, ← List.countP_eq_length_filter, List.countP_append]

/-- A pool without objects. -/
def init (sizes : Sizes) (pages : Nat → Page) : SmallPool := { sizes, pages }

theorem Inv.init (sizes : Sizes) (pages : Nat → Page) : Inv (init sizes pages) := by
  have hempty : ∀ {β : Type} {P : β → Prop}, ∀ b ∈ ([] : List β), P b :=
    fun _ hb => absurd hb List.not_mem_nil
  exact ⟨hempty, List.Pairwise.nil, hempty, hempty, List.nodup_nil, rfl, hempty⟩

theorem Inv.run {as : List Action} (h : Inv s) (hvalid : ValidRun s as) : Inv (s.run as) := by
  induction as generalizing s with
  | nil => exact h
  | cons a as ih => exact ih (step_inv h hvalid.1) hvalid.2

/-- In every run of a pool its objects are conserved. -/
theorem run_conserves_objects (sizes : Sizes) (pages : Nat → Page) (as : List Action)
    (h : ValidRun (init sizes pages) as) : Conserves ((init sizes pages).run as) :=
  ((Inv.init sizes pages).run h).conserves

/-- A refill gets a span of the preferred size and one of the fallback size, and then fails. -/
theorem run_conserves_refill :
    let as : List Action := [.allocate, .refill (.preferred 16 16), .refill (.fallback 40 4),
      .refill .none, .other 32 {}, .deallocate 163840]
    Conserves ((init (Sizes.new 16384 (by decide) (by decide)) fun _ => {}).run as) :=
  run_conserves_objects _ _ _ (by decide +kernel)

end SmallPool

end Seastar
